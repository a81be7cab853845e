import Eau2.Serial.Serializer

/-!
# The hash map

`utils/map.h`: an array of buckets, each a chain of entries.  A key type brings
its `equals` and its `hash` (`HashKey`); `LawfulHashKey` asks that the first is
an equivalence which the second respects.  `Map(0)` divides by zero on its first
use; `Valid` leaves it out.

* `get_put`: a map that stored `v` under `k` finds `v` under every key equal to
  `k` and what it found before under every other key.
* `Valid.put`: the bucket discipline and the entry count survive a `put`.
* `Valid.remove`, `get_remove`: so they do a `remove`, which takes the equal keys
  away and nothing else.
* `get_putAll`: what a map holds after a run of puts that agree with each other.
* `Table`: a map bundled with its invariant, for keys whose `equals` is equality.
-/

namespace Eau2

/-- A key with its `equals` and `hash`. -/
class HashKey (K : Type) where
  equals : K → K → Bool
  hash : K → SizeT

/-- `equals` is an equivalence and `hash` respects it. -/
class LawfulHashKey (K : Type) [HashKey K] : Prop where
  refl : ∀ k : K, HashKey.equals k k = true
  symm : ∀ {k l : K}, HashKey.equals k l = true → HashKey.equals l k = true
  trans : ∀ {k l m : K}, HashKey.equals k l = true → HashKey.equals l m = true →
    HashKey.equals k m = true
  hash_eq : ∀ {k l : K}, HashKey.equals k l = true → HashKey.hash k = HashKey.hash l

open HashKey

structure Map (K V : Type) where
  /-- `buckets_`, each entry chain front to back. -/
  buckets : List (List (K × V))
  size : Nat
  deriving DecidableEq, Repr

namespace Map

variable {K V : Type} [HashKey K]

def new (capacity : Nat) : Map K V := ⟨List.replicate capacity [], 0⟩

omit [HashKey K] in
def capacity (m : Map K V) : Nat := m.buckets.length

def index (m : Map K V) (k : K) : Nat := (hash k).toNat % m.capacity

def bucket (m : Map K V) (i : Nat) : List (K × V) := m.buckets.getD i []

/-- `getFromBucket_`: walk the chain to the first key that equals `k`. -/
def getFromBucket : List (K × V) → K → Option V
  | [], _ => none
  | (k', v) :: rest, k => if equals k' k then some v else getFromBucket rest k

/-- `insertIntoBucket_`: replace the value of an equal key, else append. -/
def insertIntoBucket : List (K × V) → K → V → List (K × V) × Option V
  | [], k, v => ([(k, v)], none)
  | (k', v') :: rest, k, v =>
    if equals k' k then ((k', v) :: rest, some v')
    else ((k', v') :: (insertIntoBucket rest k v).1, (insertIntoBucket rest k v).2)

def get (m : Map K V) (k : K) : Option V := getFromBucket (m.bucket (m.index k)) k

/-- `put`, with the value it replaced. -/
def put (m : Map K V) (k : K) (v : V) : Map K V × Option V :=
  let (chain, old) := insertIntoBucket (m.bucket (m.index k)) k v
  (⟨m.buckets.set (m.index k) chain, if old.isNone then m.size + 1 else m.size⟩, old)

/-- `removeFromBucket_`: unlink the first entry with an equal key. -/
def removeFromBucket : List (K × V) → K → List (K × V) × Option V
  | [], _ => ([], none)
  | (k', v') :: rest, k =>
    if equals k' k then (rest, some v')
    else ((k', v') :: (removeFromBucket rest k).1, (removeFromBucket rest k).2)

/-- `remove`, which asserts that the key is there. -/
def remove (m : Map K V) (k : K) : Option (V × Map K V) :=
  match removeFromBucket (m.bucket (m.index k)) k with
  | (chain, some v) => some (v, ⟨m.buckets.set (m.index k) chain, m.size - 1⟩)
  | (_, none) => none

def containsKey (m : Map K V) (k : K) : Bool := (m.get k).isSome

/-- The entries in the order the buckets are walked. -/
def entries (m : Map K V) : List (K × V) := m.buckets.flatten

def getKeys (m : Map K V) : List K := m.entries.map Prod.fst

/-! ### Chains -/

theorem equals_congr_left [LawfulHashKey K] {k₀ k : K} (h : equals k₀ k = true) (k' : K) :
    equals k₀ k' = true ↔ equals k k' = true :=
  ⟨fun h' => LawfulHashKey.trans (LawfulHashKey.symm h) h', fun h' => LawfulHashKey.trans h h'⟩

theorem not_equals_of_equals [LawfulHashKey K] {k₀ k k' : K} (h : ¬ equals k₀ k = true)
    (h' : equals k k' = true) : ¬ equals k₀ k' = true :=
  fun hc => h (LawfulHashKey.trans hc (LawfulHashKey.symm h'))

theorem getFromBucket_insert [LawfulHashKey K] (c : List (K × V)) (k k' : K) (v : V) :
    getFromBucket (insertIntoBucket c k v).1 k' =
      if equals k k' then some v else getFromBucket c k' := by
  induction c with
  | nil => rfl
  | cons e c ih =>
    obtain ⟨k₀, v₀⟩ := e
    rw [insertIntoBucket]
    by_cases h0 : equals k₀ k = true
    · rw [if_pos h0, getFromBucket, getFromBucket]
      have hcongr := equals_congr_left h0 k'
      by_cases hk : equals k k' = true
      · rw [if_pos hk, if_pos (hcongr.mpr hk)]
      · have hn := hcongr.not.mpr hk
        rw [if_neg hk, if_neg hn, if_neg hn]
    · rw [if_neg h0, getFromBucket, ih, getFromBucket]
      by_cases hk : equals k k' = true
      · rw [if_neg (not_equals_of_equals h0 hk), if_pos hk, if_pos hk]
      · rw [if_neg hk, if_neg hk]

theorem mem_insertIntoBucket {c : List (K × V)} {k : K} {v : V} {e : K × V}
    (h : e ∈ (insertIntoBucket c k v).1) :
    e = (k, v) ∨ ∃ e' ∈ c, e'.1 = e.1 := by
  induction c with
  | nil => exact Or.inl (List.mem_singleton.mp h)
  | cons e₀ c ih =>
    obtain ⟨k₀, v₀⟩ := e₀
    rw [insertIntoBucket] at h
    split at h
    · rcases List.mem_cons.mp h with rfl | h
      · exact Or.inr ⟨(k₀, v₀), List.mem_cons_self, rfl⟩
      · exact Or.inr ⟨e, List.mem_cons_of_mem _ h, rfl⟩
    · rcases List.mem_cons.mp h with rfl | h
      · exact Or.inr ⟨(k₀, v₀), List.mem_cons_self, rfl⟩
      · rcases ih h with he | ⟨e', he', hk⟩
        · exact Or.inl he
        · exact Or.inr ⟨e', List.mem_cons_of_mem _ he', hk⟩

theorem insertIntoBucket_snd (c : List (K × V)) (k : K) (v : V) :
    (insertIntoBucket c k v).2 = getFromBucket c k := by
  induction c with
  | nil => rfl
  | cons e c ih =>
    rw [insertIntoBucket, getFromBucket]
    split
    · rfl
    · exact ih

theorem length_insertIntoBucket (c : List (K × V)) (k : K) (v : V) :
    (insertIntoBucket c k v).1.length =
      if (insertIntoBucket c k v).2.isNone then c.length + 1 else c.length := by
  induction c with
  | nil => rfl
  | cons e c ih =>
    obtain ⟨k₀, v₀⟩ := e
    rw [insertIntoBucket]
    split
    · rfl
    · simp only [List.length_cons, ih]
      split <;> rfl

def Distinct (c : List (K × V)) : Prop := c.Pairwise fun e e' => ¬ equals e.1 e'.1 = true

theorem distinct_insertIntoBucket [LawfulHashKey K] {c : List (K × V)} (h : Distinct c) (k : K)
    (v : V) : Distinct (insertIntoBucket c k v).1 := by
  induction c with
  | nil => exact List.pairwise_singleton _ _
  | cons e c ih =>
    obtain ⟨k₀, v₀⟩ := e
    obtain ⟨h1, h2⟩ := List.pairwise_cons.mp h
    rw [insertIntoBucket]
    by_cases h0 : equals k₀ k = true
    · rw [if_pos h0]
      exact List.pairwise_cons.mpr ⟨h1, h2⟩
    · rw [if_neg h0]
      refine List.pairwise_cons.mpr ⟨?_, ih h2⟩
      intro e he
      rcases mem_insertIntoBucket he with rfl | ⟨e', he', hk⟩
      · exact h0
      · rw [← hk]
        exact h1 e' he'

theorem removeFromBucket_sublist (c : List (K × V)) (k : K) :
    (removeFromBucket c k).1.Sublist c := by
  induction c with
  | nil => exact List.Sublist.refl _
  | cons e c ih =>
    obtain ⟨k₀, v₀⟩ := e
    rw [removeFromBucket]
    split
    · exact List.sublist_cons_self _ _
    · exact ih.cons_cons _

theorem removeFromBucket_snd (c : List (K × V)) (k : K) :
    (removeFromBucket c k).2 = getFromBucket c k := by
  induction c with
  | nil => rfl
  | cons e c ih =>
    obtain ⟨k₀, v₀⟩ := e
    rw [removeFromBucket, getFromBucket]
    split
    · rfl
    · exact ih

theorem length_removeFromBucket {c : List (K × V)} {k : K} {v : V}
    (h : (removeFromBucket c k).2 = some v) :
    (removeFromBucket c k).1.length + 1 = c.length := by
  induction c with
  | nil => cases h
  | cons e c ih =>
    obtain ⟨k₀, v₀⟩ := e
    rw [removeFromBucket] at h ⊢
    split
    · rfl
    · rename_i hn
      rw [if_neg hn] at h
      rw [List.length_cons, List.length_cons, ih h]

theorem getFromBucket_eq_none {c : List (K × V)} {k : K}
    (h : ∀ e ∈ c, ¬ equals e.1 k = true) : getFromBucket c k = none := by
  induction c with
  | nil => rfl
  | cons e c ih =>
    obtain ⟨k₀, v₀⟩ := e
    rw [getFromBucket, if_neg (h (k₀, v₀) List.mem_cons_self)]
    exact ih fun e he => h e (List.mem_cons_of_mem _ he)

theorem getFromBucket_remove [LawfulHashKey K] {c : List (K × V)} (h : Distinct c) (k k' : K) :
    getFromBucket (removeFromBucket c k).1 k' =
      if equals k k' then none else getFromBucket c k' := by
  induction c with
  | nil => simp [removeFromBucket, getFromBucket]
  | cons e c ih =>
    obtain ⟨k₀, v₀⟩ := e
    obtain ⟨h1, h2⟩ := List.pairwise_cons.mp h
    rw [removeFromBucket]
    by_cases h0 : equals k₀ k = true
    · rw [if_pos h0, getFromBucket]
      have hcongr := equals_congr_left h0 k'
      by_cases hk : equals k k' = true
      · rw [if_pos hk]
        refine getFromBucket_eq_none ?_
        intro e he hek
        exact h1 e he (LawfulHashKey.trans (hcongr.mpr hk) (LawfulHashKey.symm hek))
      · rw [if_neg hk, if_neg (hcongr.not.mpr hk)]
    · rw [if_neg h0, getFromBucket, ih h2, getFromBucket]
      by_cases hk : equals k k' = true
      · rw [if_neg (not_equals_of_equals h0 hk), if_pos hk, if_pos hk]
      · rw [if_neg hk, if_neg hk]

theorem mem_of_getFromBucket {c : List (K × V)} {k : K} {v : V}
    (h : getFromBucket c k = some v) : ∃ k', (k', v) ∈ c ∧ equals k' k = true := by
  induction c with
  | nil => cases h
  | cons e c ih =>
    obtain ⟨k₀, v₀⟩ := e
    rw [getFromBucket] at h
    split at h
    · cases h
      exact ⟨k₀, List.mem_cons_self, by assumption⟩
    · obtain ⟨k', hm, he⟩ := ih h
      exact ⟨k', List.mem_cons_of_mem _ hm, he⟩

theorem isSome_getFromBucket [LawfulHashKey K] {c : List (K × V)} {e : K × V} (h : e ∈ c) :
    (getFromBucket c e.1).isSome := by
  induction c with
  | nil => cases h
  | cons e₀ c ih =>
    obtain ⟨k₀, v₀⟩ := e₀
    rw [getFromBucket]
    split
    · rfl
    · rcases List.mem_cons.mp h with rfl | h
      · rename_i hn
        exact absurd (LawfulHashKey.refl _) hn
      · exact ih h

/-! ### The map -/

structure Valid (m : Map K V) : Prop where
  cap_pos : 0 < m.capacity
  /-- Every entry sits in bucket `hash % capacity_`. -/
  placed : ∀ i, ∀ e ∈ m.bucket i, m.index e.1 = i
  distinct : ∀ i, Distinct (m.bucket i)
  size_eq : m.size = m.entries.length

omit [HashKey K] in
@[simp] theorem capacity_new (n : Nat) : (new n : Map K V).capacity = n := List.length_replicate

omit [HashKey K] in
@[simp] theorem bucket_new (n i : Nat) : (new n : Map K V).bucket i = [] := by
  rw [bucket, new, List.getD_eq_getElem?_getD, List.getElem?_replicate]
  split <;> rfl

theorem valid_new {n : Nat} (h : 0 < n) : Valid (new n : Map K V) where
  cap_pos := by rwa [capacity_new]
  placed := by simp
  distinct := by simp [Distinct]
  size_eq := by simp [entries, new]

@[simp] theorem get_new (n : Nat) (k : K) : (new n : Map K V).get k = none := by
  rw [get, bucket_new]
  rfl

@[simp] theorem capacity_put (m : Map K V) (k : K) (v : V) :
    (m.put k v).1.capacity = m.capacity := List.length_set

theorem index_put (m : Map K V) (k k' : K) (v : V) : (m.put k v).1.index k' = m.index k' := by
  rw [index, index, capacity_put]

theorem index_lt {m : Map K V} (h : 0 < m.capacity) (k : K) : m.index k < m.capacity :=
  Nat.mod_lt _ h

theorem index_eq_of_equals [LawfulHashKey K] {k k' : K} (m : Map K V) (h : equals k k' = true) :
    m.index k = m.index k' := by
  rw [index, index, LawfulHashKey.hash_eq h]

theorem bucket_put {m : Map K V} (h : 0 < m.capacity) (k : K) (v : V) (i : Nat) :
    (m.put k v).1.bucket i =
      if m.index k = i then (insertIntoBucket (m.bucket i) k v).1 else m.bucket i := by
  have hlt := index_lt h k
  by_cases hi : m.index k = i
  · subst hi
    rw [if_pos rfl, bucket, put, List.getD_eq_getElem?_getD, List.getElem?_set_self hlt]
    rfl
  · rw [if_neg hi, bucket, put, List.getD_eq_getElem?_getD, List.getElem?_set_ne hi, bucket,
      List.getD_eq_getElem?_getD]

/-- **A `put` is seen under the equal keys and nowhere else.** -/
theorem get_put [LawfulHashKey K] {m : Map K V} (h : 0 < m.capacity) (k k' : K) (v : V) :
    (m.put k v).1.get k' = if equals k k' then some v else m.get k' := by
  rw [get, index_put, bucket_put h, get]
  by_cases hi : m.index k = m.index k'
  · rw [if_pos hi, getFromBucket_insert]
  · have hn : ¬ equals k k' = true := fun he => hi (index_eq_of_equals m he)
    rw [if_neg hi, if_neg hn]

omit [HashKey K] in
/-- Exchanging one bucket changes the number of entries by the difference. -/
theorem length_entries_set (m : Map K V) {i : Nat} (hi : i < m.capacity) (c : List (K × V))
    (n : Nat) : (Map.entries ⟨m.buckets.set i c, n⟩).length + (m.bucket i).length =
      m.entries.length + c.length := by
  have hlt : i < m.buckets.length := hi
  have hsplit : m.buckets = m.buckets.take i ++ m.bucket i :: m.buckets.drop (i + 1) := by
    rw [bucket, List.getD_eq_getElem _ _ hlt, List.cons_getElem_drop_succ, List.take_append_drop]
  have hset : m.buckets.set i c = m.buckets.take i ++ c :: m.buckets.drop (i + 1) :=
    List.set_eq_take_append_cons_drop.trans (if_pos hlt)
  rw [entries, entries, hset, List.flatten_append, List.flatten_cons]
  conv_rhs => rw [hsplit, List.flatten_append, List.flatten_cons]
  simp only [List.length_append]
  omega

theorem size_put {m : Map K V} (h : Valid m) (k : K) (v : V) :
    (m.put k v).1.size = (m.put k v).1.entries.length := by
  have hset := length_entries_set m (index_lt h.cap_pos k)
    (insertIntoBucket (m.bucket (m.index k)) k v).1 (m.put k v).1.size
  have hl := length_insertIntoBucket (m.bucket (m.index k)) k v
  have he := h.size_eq
  show (if (insertIntoBucket (m.bucket (m.index k)) k v).2.isNone then m.size + 1 else m.size) =
    (Map.entries ⟨_, (m.put k v).1.size⟩).length
  split at hl
  · rename_i ho
    rw [if_pos ho]
    omega
  · rename_i ho
    rw [if_neg ho]
    omega

theorem Valid.put [LawfulHashKey K] {m : Map K V} (h : Valid m) (k : K) (v : V) :
    Valid (m.put k v).1 where
  cap_pos := by rw [capacity_put]; exact h.cap_pos
  placed := by
    intro i e he
    rw [index_put]
    rw [bucket_put h.cap_pos] at he
    split at he
    · rename_i hi
      rcases mem_insertIntoBucket he with rfl | ⟨e', he', hk⟩
      · exact hi
      · rw [← hk]
        exact h.placed i e' he'
    · exact h.placed i e he
  distinct := by
    intro i
    rw [bucket_put h.cap_pos]
    split
    · exact distinct_insertIntoBucket (h.distinct i) k v
    · exact h.distinct i
  size_eq := size_put h k v

/-! ### Removing -/

theorem remove_eq_some {m m' : Map K V} {k : K} {v : V} (h : m.remove k = some (v, m')) :
    (removeFromBucket (m.bucket (m.index k)) k).2 = some v ∧
      m' = ⟨m.buckets.set (m.index k) (removeFromBucket (m.bucket (m.index k)) k).1,
        m.size - 1⟩ := by
  rw [remove] at h
  split at h
  · rename_i chain v' he
    cases h
    rw [he]
    exact ⟨rfl, rfl⟩
  · cases h

/-- **`remove` succeeds exactly on the keys that are there, and returns their value.** -/
theorem remove_isSome (m : Map K V) (k : K) : (m.remove k).map Prod.fst = m.get k := by
  rw [get, ← removeFromBucket_snd, remove]
  split
  · rename_i he
    rw [he]
    rfl
  · rename_i he
    rw [he]
    rfl

theorem capacity_remove {m m' : Map K V} {k : K} {v : V} (h : m.remove k = some (v, m')) :
    m'.capacity = m.capacity := by
  rw [(remove_eq_some h).2]
  exact List.length_set

theorem bucket_remove {m m' : Map K V} {k : K} {v : V} (hc : 0 < m.capacity)
    (h : m.remove k = some (v, m')) (i : Nat) :
    m'.bucket i = if m.index k = i then (removeFromBucket (m.bucket i) k).1 else m.bucket i := by
  have hlt := index_lt hc k
  rw [(remove_eq_some h).2]
  by_cases hi : m.index k = i
  · subst hi
    rw [if_pos rfl, bucket, List.getD_eq_getElem?_getD, List.getElem?_set_self hlt]
    rfl
  · rw [if_neg hi, bucket, List.getD_eq_getElem?_getD, List.getElem?_set_ne hi, bucket,
      List.getD_eq_getElem?_getD]

theorem index_remove {m m' : Map K V} {k : K} {v : V} (h : m.remove k = some (v, m')) (k' : K) :
    m'.index k' = m.index k' := by
  rw [index, index, capacity_remove h]

/-- **A `remove` takes the equal keys away and nothing else.** -/
theorem get_remove [LawfulHashKey K] {m m' : Map K V} {k : K} {v : V} (hv : Valid m)
    (h : m.remove k = some (v, m')) (k' : K) :
    m'.get k' = if equals k k' then none else m.get k' := by
  rw [get, index_remove h, bucket_remove hv.cap_pos h, get]
  by_cases hi : m.index k = m.index k'
  · rw [if_pos hi, getFromBucket_remove (hv.distinct _)]
  · have hn : ¬ equals k k' = true := fun he => hi (index_eq_of_equals m he)
    rw [if_neg hi, if_neg hn]

theorem length_entries_remove {m m' : Map K V} {k : K} {v : V} (hv : Valid m)
    (h : m.remove k = some (v, m')) : m'.entries.length + 1 = m.entries.length := by
  obtain ⟨hr, hm'⟩ := remove_eq_some h
  have hset := length_entries_set m (index_lt hv.cap_pos k)
    (removeFromBucket (m.bucket (m.index k)) k).1 (m.size - 1)
  have hl := length_removeFromBucket hr
  rw [hm']
  omega

theorem Valid.remove [LawfulHashKey K] {m m' : Map K V} {k : K} {v : V} (hv : Valid m)
    (h : m.remove k = some (v, m')) : Valid m' where
  cap_pos := by
    rw [capacity_remove h]
    exact hv.cap_pos
  placed := by
    intro i e he
    rw [index_remove h]
    rw [bucket_remove hv.cap_pos h] at he
    split at he
    · exact hv.placed i e ((removeFromBucket_sublist _ _).subset he)
    · exact hv.placed i e he
  distinct := by
    intro i
    rw [bucket_remove hv.cap_pos h]
    split
    · exact (hv.distinct i).sublist (removeFromBucket_sublist _ _)
    · exact hv.distinct i
  size_eq := by
    have hl := length_entries_remove hv h
    have he := hv.size_eq
    rw [(remove_eq_some h).2] at hl ⊢
    show m.size - 1 = _
    omega

omit [HashKey K] in
theorem mem_entries_iff {m : Map K V} {e : K × V} : e ∈ m.entries ↔ ∃ i, e ∈ m.bucket i := by
  constructor
  · intro h
    obtain ⟨c, hc, he⟩ := List.mem_flatten.mp h
    obtain ⟨i, hi, rfl⟩ := List.mem_iff_getElem.mp hc
    exact ⟨i, by rwa [bucket, List.getD_eq_getElem _ _ hi]⟩
  · rintro ⟨i, he⟩
    rw [bucket] at he
    by_cases hi : i < m.buckets.length
    · rw [List.getD_eq_getElem _ _ hi] at he
      exact List.mem_flatten.mpr ⟨_, List.getElem_mem hi, he⟩
    · rw [List.getD_eq_default _ _ (by omega)] at he
      cases he

theorem isSome_get_of_mem_getKeys [LawfulHashKey K] {m : Map K V} (h : Valid m) {k : K}
    (hk : k ∈ m.getKeys) : (m.get k).isSome := by
  obtain ⟨e, he, rfl⟩ := List.mem_map.mp hk
  obtain ⟨i, hi⟩ := mem_entries_iff.mp he
  rw [get, h.placed i e hi]
  exact isSome_getFromBucket hi

theorem get_of_mem_bucket [LawfulHashKey K] {c : List (K × V)} (h : Distinct c) {e : K × V}
    (he : e ∈ c) :
    getFromBucket c e.1 = some e.2 := by
  induction c with
  | nil => cases he
  | cons e₀ c ih =>
    obtain ⟨h1, h2⟩ := List.pairwise_cons.mp h
    unfold getFromBucket
    rcases List.mem_cons.mp he with rfl | he
    · exact if_pos (LawfulHashKey.refl _)
    · rw [if_neg (h1 e he)]
      exact ih h2 he

theorem get_of_mem_entries [LawfulHashKey K] {m : Map K V} (h : Valid m) {e : K × V}
    (he : e ∈ m.entries) :
    m.get e.1 = some e.2 := by
  obtain ⟨i, hi⟩ := mem_entries_iff.mp he
  rw [get, h.placed i e hi]
  exact get_of_mem_bucket (h.distinct i) hi

theorem exists_mem_getKeys {m : Map K V} {k : K} {v : V} (h : m.get k = some v) :
    ∃ k' ∈ m.getKeys, equals k' k = true := by
  obtain ⟨k', hm, he⟩ := mem_of_getFromBucket h
  exact ⟨k', List.mem_map.mpr ⟨_, mem_entries_iff.mpr ⟨_, hm⟩, rfl⟩, he⟩

theorem get_eq_of_equals [LawfulHashKey K] (m : Map K V) {k k' : K} (h : equals k k' = true) :
    m.get k = m.get k' := by
  have hc : ∀ c : List (K × V), getFromBucket c k = getFromBucket c k' := by
    intro c
    induction c with
    | nil => rfl
    | cons e c ih =>
      obtain ⟨k₀, v₀⟩ := e
      rw [getFromBucket, getFromBucket, ih]
      by_cases hk : equals k₀ k = true
      · rw [if_pos hk, if_pos (LawfulHashKey.trans hk h)]
      · rw [if_neg hk, if_neg (not_equals_of_equals hk h)]
  rw [get, get, index_eq_of_equals m h, hc]

theorem Valid.distinct_entries [LawfulHashKey K] {m : Map K V} (h : Valid m) :
    Distinct m.entries := by
  rw [Distinct, entries, List.pairwise_flatten]
  constructor
  · intro c hc
    obtain ⟨i, hi, rfl⟩ := List.mem_iff_getElem.mp hc
    have := h.distinct i
    rwa [bucket, List.getD_eq_getElem _ _ hi] at this
  · rw [List.pairwise_iff_getElem]
    intro i j hi hj hij e he e' he' heq
    -- equal keys would sit in one bucket
    have hpi := h.placed i e (by rwa [bucket, List.getD_eq_getElem _ _ hi])
    have hpj := h.placed j e' (by rwa [bucket, List.getD_eq_getElem _ _ hj])
    rw [index_eq_of_equals m heq, hpj] at hpi
    omega

/-! ### Runs of puts -/

def putAll (m : Map K V) (ps : List (K × V)) : Map K V :=
  ps.foldl (fun m p => (m.put p.1 p.2).1) m

@[simp] theorem capacity_putAll (m : Map K V) (ps : List (K × V)) :
    (m.putAll ps).capacity = m.capacity := by
  induction ps generalizing m with
  | nil => rfl
  | cons p ps ih => exact (ih _).trans (capacity_put m p.1 p.2)

theorem Valid.putAll [LawfulHashKey K] {m : Map K V} (h : Valid m) (ps : List (K × V)) :
    Valid (m.putAll ps) := by
  induction ps generalizing m with
  | nil => exact h
  | cons p ps ih => exact ih (h.put p.1 p.2)

theorem size_put_le (m : Map K V) (k : K) (v : V) : (m.put k v).1.size ≤ m.size + 1 := by
  show (if (insertIntoBucket (m.bucket (m.index k)) k v).2.isNone then m.size + 1 else m.size) ≤ _
  split
  · exact Nat.le_refl _
  · exact Nat.le_succ _

theorem size_putAll_le (m : Map K V) (ps : List (K × V)) :
    (m.putAll ps).size ≤ m.size + ps.length := by
  induction ps generalizing m with
  | nil => exact Nat.le_refl _
  | cons p ps ih =>
    have h1 := size_put_le m p.1 p.2
    have h2 : (m.putAll (p :: ps)).size ≤ (m.put p.1 p.2).1.size + ps.length := ih _
    rw [List.length_cons]
    omega

/-- **After a run of puts that all read their values off one function `g`, a key
that occurs in the run has the value `g` gives it.** -/
theorem get_putAll [LawfulHashKey K] {m : Map K V} (h : 0 < m.capacity) (g : K → Option V)
    (hg : ∀ {k k'}, equals k k' = true → g k = g k') {ps : List (K × V)}
    (hps : ∀ p ∈ ps, g p.1 = some p.2) (k : K) :
    (m.putAll ps).get k = if ∃ p ∈ ps, equals p.1 k = true then g k else m.get k := by
  induction ps generalizing m with
  | nil => simp [putAll]
  | cons p ps ih =>
    have hcap : 0 < (m.put p.1 p.2).1.capacity := by rwa [capacity_put]
    have := ih hcap (fun q hq => hps q (List.mem_cons_of_mem p hq))
    show ((m.put p.1 p.2).1.putAll ps).get k = _
    rw [this, get_put h]
    by_cases hr : ∃ q ∈ ps, equals q.1 k = true
    · have hr' : ∃ q ∈ p :: ps, equals q.1 k = true := by
        obtain ⟨q, hq, he⟩ := hr
        exact ⟨q, List.mem_cons_of_mem p hq, he⟩
      rw [if_pos hr, if_pos hr']
    · rw [if_neg hr]
      by_cases hp : equals p.1 k = true
      · rw [if_pos hp, if_pos ⟨p, List.mem_cons_self, hp⟩, ← hps p List.mem_cons_self, hg hp]
      · rw [if_neg hp, if_neg]
        rintro ⟨q, hq, he⟩
        rcases List.mem_cons.mp hq with rfl | hq
        · exact hp he
        · exact hr ⟨q, hq, he⟩

end Map

/-! ### Maps with their invariant -/

/-- Keys whose `equals` is equality. -/
class ExactHashKey (K : Type) [HashKey K] : Prop where
  equals_iff : ∀ {k l : K}, equals k l = true ↔ k = l

instance {K : Type} [HashKey K] [ExactHashKey K] : LawfulHashKey K where
  refl _ := ExactHashKey.equals_iff.mpr rfl
  symm h := ExactHashKey.equals_iff.mpr (ExactHashKey.equals_iff.mp h).symm
  trans h h' := ExactHashKey.equals_iff.mpr
    ((ExactHashKey.equals_iff.mp h).trans (ExactHashKey.equals_iff.mp h'))
  hash_eq h := by rw [ExactHashKey.equals_iff.mp h]

/-- A map that keeps the representation invariant. -/
structure Table (K V : Type) [HashKey K] where
  map : Map K V
  valid : map.Valid

namespace Table

variable {K V : Type} [HashKey K] [ExactHashKey K] [DecidableEq K]

omit [ExactHashKey K] [DecidableEq K] in
def new : Table K V := ⟨Map.new 4, Map.valid_new (by decide)⟩

omit [ExactHashKey K] [DecidableEq K] in
def get (t : Table K V) (k : K) : Option V := t.map.get k

omit [DecidableEq K] in
def put (t : Table K V) (k : K) (v : V) : Table K V := ⟨(t.map.put k v).1, t.valid.put k v⟩

omit [DecidableEq K] in
/-- `remove`; a key that is not there is `none`. -/
def remove (t : Table K V) (k : K) : Option (V × Table K V) :=
  match h : t.map.remove k with
  | some (v, m) => some (v, ⟨m, t.valid.remove h⟩)
  | none => none

omit [ExactHashKey K] [DecidableEq K] in
@[simp] theorem get_new (k : K) : (new : Table K V).get k = none := Map.get_new 4 k

@[simp] theorem get_put (t : Table K V) (k k' : K) (v : V) :
    (t.put k v).get k' = if k = k' then some v else t.get k' := by
  rw [get, put, Map.get_put t.valid.cap_pos]
  simp only [ExactHashKey.equals_iff]
  rfl

theorem remove_eq_some {t t' : Table K V} {k : K} {v : V} (h : t.remove k = some (v, t')) :
    t.get k = some v ∧ ∀ k', t'.get k' = if k = k' then none else t.get k' := by
  rw [remove] at h
  split at h
  · rename_i v₀ m hm
    cases h
    refine ⟨?_, ?_⟩
    · rw [get, ← Map.remove_isSome, hm]
      rfl
    · intro k'
      rw [get, Map.get_remove t.valid hm]
      simp only [ExactHashKey.equals_iff]
      rfl
  · cases h

omit [DecidableEq K] in
theorem remove_eq_none {t : Table K V} {k : K} : t.remove k = none ↔ t.get k = none := by
  rw [remove]
  split
  · rename_i v m hm
    simp [get, ← Map.remove_isSome, hm]
  · rename_i hm
    simp [get, ← Map.remove_isSome, hm]

omit [ExactHashKey K] [DecidableEq K] in
def size (t : Table K V) : Nat := t.map.size

omit [ExactHashKey K] [DecidableEq K] in
def containsKey (t : Table K V) (k : K) : Bool := t.map.containsKey k

omit [ExactHashKey K] [DecidableEq K] in
theorem containsKey_eq (t : Table K V) (k : K) : t.containsKey k = (t.get k).isSome := rfl

omit [ExactHashKey K] [DecidableEq K] in
@[simp] theorem size_new : (new : Table K V).size = 0 := rfl

omit [DecidableEq K] in
theorem size_put {t : Table K V} {k : K} (h : t.get k = none) (v : V) :
    (t.put k v).size = t.size + 1 := by
  have hold : (Map.insertIntoBucket (t.map.bucket (t.map.index k)) k v).2.isNone = true := by
    rw [Option.isNone_iff_eq_none, Map.insertIntoBucket_snd]
    exact h
  exact if_pos hold

omit [DecidableEq K] in
theorem size_remove {t t' : Table K V} {k : K} {v : V} (h : t.remove k = some (v, t')) :
    t'.size + 1 = t.size := by
  rw [remove] at h
  split at h
  · rename_i v₀ m hm
    cases h
    have hs := (t.valid.remove hm).size_eq
    have he := Map.length_entries_remove t.valid hm
    have hold := t.valid.size_eq
    show m.size + 1 = t.map.size
    omega
  · cases h

end Table

end Eau2
