import Eau2.Base.Served
import Eau2.Utils.Str

/-!
# The hash map is a finite map

A `Map` answers `put`, `get`, `contains_key`, `remove` and `clear` as a finite map
from keys to values would, the keys being taken up to their `equals` (`KeyClass`).

* `agree_answer`: one call of a map that represents a finite map.
* `serve_agree`: every sequence of calls, from any number of buckets.
* `get_keys_eq`, `get_values_eq`: both arrays list the entries bucket by bucket.  The
  two methods count the entries they have written in an `int`.
-/

namespace Eau2

open HashKey

/-! ### Keys up to `equals` -/

def keySetoid (K : Type) [HashKey K] [LawfulHashKey K] : Setoid K where
  r k l := equals k l = true
  iseqv := ⟨LawfulHashKey.refl, LawfulHashKey.symm, LawfulHashKey.trans⟩

def KeyClass (K : Type) [HashKey K] [LawfulHashKey K] : Type := Quotient (keySetoid K)

namespace KeyClass

variable {K : Type} [HashKey K] [LawfulHashKey K]

def of (k : K) : KeyClass K := Quotient.mk (keySetoid K) k

theorem of_eq_of {k l : K} : of k = of l ↔ equals k l = true := Quotient.eq (r := keySetoid K)

instance : DecidableEq (KeyClass K) :=
  @Quotient.decidableEq K (keySetoid K) fun k l => inferInstanceAs (Decidable (equals k l = true))

end KeyClass

open KeyClass

namespace Map

variable {K V : Type} [HashKey K]

/-! ### Calls -/

/-- `clear`, which also goes back to four buckets. -/
def clear (_ : Map K V) : Map K V := new 4

def bucketContainsKey : List (K × V) → K → Bool
  | [], _ => false
  | (k', _) :: rest, k => if equals k' k then true else bucketContainsKey rest k

theorem containsKey_eq (m : Map K V) (k : K) :
    m.containsKey k = bucketContainsKey (m.bucket (m.index k)) k := by
  unfold containsKey get
  induction m.bucket (m.index k) with
  | nil => rfl
  | cons e c ih =>
    unfold getFromBucket bucketContainsKey
    split
    · rfl
    · exact ih

/-- The methods of a map, with their pointers; a null pointer is `none`. -/
inductive Call (K V : Type) where
  | put (key : Option K) (val : Option V)
  | get (key : Option K)
  | containsKey (key : Option K)
  | remove (key : Option K)
  | clear

inductive Reply (V : Type) where
  | value (val : Option V)
  | flag (b : Bool)
  | done
  deriving DecidableEq

/-- One call.  A null key or value is turned away before anything else is done. -/
def answer (m : Map K V) : Call K V → Option (Reply V × Map K V)
  | .put (some k) (some v) => some (.value (m.put k v).2, (m.put k v).1)
  | .put _ _ => some (.value none, m)
  | .get (some k) => some (.value (m.get k), m)
  | .get none => some (.value none, m)
  | .containsKey (some k) => some (.flag (m.containsKey k), m)
  | .containsKey none => some (.flag false, m)
  | .remove (some k) => (m.remove k).map fun p => (.value (some p.1), p.2)
  | .remove none => some (.value none, m)
  | .clear => some (.done, m.clear)

end Map

/-- A finite map from the keys, up to `equals`, to values. -/
abbrev KeyMap (K V : Type) [HashKey K] [LawfulHashKey K] := Finmap fun _ : KeyClass K => V

namespace KeyMap

variable {K V : Type} [HashKey K] [LawfulHashKey K]

/-- What the calls mean for a finite map; `remove` asserts that the key is there. -/
def answer (f : KeyMap K V) : Map.Call K V → Option (Map.Reply V × KeyMap K V)
  | .put (some k) (some v) => some (.value (f.lookup (of k)), f.insert (of k) v)
  | .put _ _ => some (.value none, f)
  | .get (some k) => some (.value (f.lookup (of k)), f)
  | .get none => some (.value none, f)
  | .containsKey (some k) => some (.flag (of k ∈ f), f)
  | .containsKey none => some (.flag false, f)
  | .remove (some k) => (f.lookup (of k)).map fun v => (.value (some v), f.erase (of k))
  | .remove none => some (.value none, f)
  | .clear => some (.done, ∅)

end KeyMap

namespace Map

variable {K V : Type} [HashKey K] [LawfulHashKey K]

/-- A well formed map with the entries of `f`. -/
structure Represents (m : Map K V) (f : KeyMap K V) : Prop where
  valid : Valid m
  get_eq : ∀ k, m.get k = f.lookup (of k)

theorem represents_new {n : ℕ} (h : 0 < n) : Represents (new n : Map K V) ∅ where
  valid := valid_new h
  get_eq k := by rw [get_new, Finmap.lookup_empty]

omit [LawfulHashKey K] in
theorem put_snd (m : Map K V) (k : K) (v : V) : (m.put k v).2 = m.get k :=
  insertIntoBucket_snd _ k v

theorem Represents.put {m : Map K V} {f : KeyMap K V} (h : Represents m f) (k : K) (v : V) :
    Represents (m.put k v).1 (f.insert (of k) v) where
  valid := h.valid.put k v
  get_eq k' := by
    rw [get_put h.valid.cap_pos]
    split
    · rename_i he
      rw [← of_eq_of.mpr he, Finmap.lookup_insert]
    · rename_i hne
      have hk : of k' ≠ of k := fun he => hne (of_eq_of.mp he.symm)
      rw [Finmap.lookup_insert_of_ne f hk, h.get_eq]

theorem Represents.remove {m m' : Map K V} {f : KeyMap K V} (h : Represents m f) {k : K} {v : V}
    (hr : m.remove k = some (v, m')) : Represents m' (f.erase (of k)) where
  valid := h.valid.remove hr
  get_eq k' := by
    rw [get_remove h.valid hr]
    split
    · rename_i he
      rw [← of_eq_of.mpr he, Finmap.lookup_erase]
    · rename_i hne
      have hk : of k' ≠ of k := fun he => hne (of_eq_of.mp he.symm)
      rw [Finmap.lookup_erase_ne hk, h.get_eq]

/-- **One call.** -/
theorem agree_answer {m : Map K V} {f : KeyMap K V} (h : Represents m f) (c : Call K V) :
    Option.Rel (Agree Represents) (m.answer c) (f.answer c) := by
  cases c with
  | put key val =>
    rcases key with - | k
    · exact Option.Rel.some ⟨rfl, h⟩
    · rcases val with - | v
      · exact Option.Rel.some ⟨rfl, h⟩
      · refine Option.Rel.some ⟨?_, h.put k v⟩
        show Reply.value (m.put k v).2 = _
        rw [put_snd, h.get_eq]
  | get key =>
    rcases key with - | k
    · exact Option.Rel.some ⟨rfl, h⟩
    · refine Option.Rel.some ⟨?_, h⟩
      show Reply.value (m.get k) = _
      rw [h.get_eq]
  | containsKey key =>
    rcases key with - | k
    · exact Option.Rel.some ⟨rfl, h⟩
    · refine Option.Rel.some ⟨?_, h⟩
      show Reply.flag (m.get k).isSome = _
      rw [h.get_eq, ← Bool.decide_coe (Finmap.lookup (of k) f).isSome]
      simp only [Finmap.lookup_isSome]
  | remove key =>
    rcases key with - | k
    · exact Option.Rel.some ⟨rfl, h⟩
    · have hget : (m.remove k).map Prod.fst = f.lookup (of k) := by
        rw [remove_isSome, h.get_eq]
      show Option.Rel _ ((m.remove k).map _) ((f.lookup (of k)).map _)
      rw [← hget]
      cases hr : m.remove k with
      | none => exact Option.Rel.none
      | some p =>
        obtain ⟨v, m'⟩ := p
        exact Option.Rel.some ⟨rfl, h.remove hr⟩
  | clear => exact Option.Rel.some ⟨rfl, represents_new (by omega)⟩

/-- **A hash map of any number of buckets answers every sequence of calls as a
finite map does.** -/
theorem serve_agree {n : ℕ} (h : 0 < n) (calls : List (Call K V)) :
    Option.Rel (Agree Represents) (serve answer (new n : Map K V) calls)
      (serve KeyMap.answer ∅ calls) :=
  serve_refines agree_answer (represents_new h) calls

theorem valid_of_serve {n : ℕ} (h : 0 < n) {calls : List (Call K V)} {rs : List (Reply V)}
    {m : Map K V} (hm : serve answer (new n) calls = some (rs, m)) : Valid m := by
  have hall := serve_agree (K := K) (V := V) h calls
  rw [hm] at hall
  generalize serve KeyMap.answer (∅ : KeyMap K V) calls = y at hall
  cases hall with
  | some hpq => exact hpq.2.valid

/-! ### The number of keys -/

theorem mem_keys_iff {m : Map K V} (h : Valid m) (k : K) :
    of k ∈ m.getKeys.map of ↔ (m.get k).isSome := by
  rw [List.mem_map]
  constructor
  · intro hs
    obtain ⟨k', hk', he⟩ := hs
    rw [← get_eq_of_equals m (of_eq_of.mp he)]
    exact isSome_get_of_mem_getKeys h hk'
  · intro hs
    obtain ⟨v, hv⟩ := Option.isSome_iff_exists.mp hs
    obtain ⟨k', hk', he⟩ := exists_mem_getKeys hv
    exact ⟨k', hk', of_eq_of.mpr he⟩

theorem Represents.keys_eq {m : Map K V} {f : KeyMap K V} (h : Represents m f) :
    f.keys = (m.getKeys.map of).toFinset := by
  ext q
  obtain ⟨k, rfl⟩ : ∃ k, of k = q := Quotient.exists_rep q
  rw [Finmap.mem_keys, ← Finmap.lookup_isSome, ← h.get_eq, List.mem_toFinset,
    mem_keys_iff h.valid]

theorem Valid.nodup_keys {m : Map K V} (h : Valid m) : (m.getKeys.map of).Nodup := by
  rw [getKeys, List.map_map, List.Nodup, List.pairwise_map]
  refine h.distinct_entries.imp ?_
  intro e e' hne he
  exact hne (of_eq_of.mp he)

/-- **`size()` is the number of distinct keys.** -/
theorem Represents.size_eq {m : Map K V} {f : KeyMap K V} (h : Represents m f) :
    m.size = f.keys.card := by
  rw [h.keys_eq, List.toFinset_card_of_nodup h.valid.nodup_keys, h.valid.size_eq,
    List.length_map, getKeys, List.length_map]

/-! ### The arrays of keys and values -/

section Arrays

omit [HashKey K] [LawfulHashKey K]

variable {α : Type}

/-- `addKeysToArr` and `addValuesToArr`: write a chain from `nextIdx` on.  `nextIdx` is
an `int`; adding to `INT_MAX`, or writing behind the array, is undefined. -/
def addToArr (f : K × V → α) : List (K × V) → List (Option α) → ℕ → Option (List (Option α) × ℕ)
  | [], arr, nextIdx => some (arr, nextIdx)
  | e :: rest, arr, nextIdx =>
    if nextIdx < arr.length ∧ nextIdx + 1 < 2 ^ 31 then
      addToArr f rest (arr.set nextIdx (some (f e))) (nextIdx + 1)
    else none

/-- Allocate `size_` cells and let every bucket write its chain. -/
def fillArr (f : K × V → α) (m : Map K V) : Option (List (Option α)) :=
  (m.buckets.foldlM (fun (arr, nextIdx) bucket => addToArr f bucket arr nextIdx)
    (List.replicate m.size none, 0)).map Prod.fst

def keysArr (m : Map K V) : Option (List (Option K)) := m.fillArr Prod.fst

def valuesArr (m : Map K V) : Option (List (Option V)) := m.fillArr Prod.snd

/-- An array in which every cell has been written. -/
def readArr (arr : List (Option α)) : Option (List α) := arr.mapM id

theorem readArr_map {β : Type} (f : α → β) (l : List α) :
    readArr (l.map fun a => some (f a)) = some (l.map f) := by
  induction l with
  | nil => rfl
  | cons a l ih =>
    unfold readArr at ih ⊢
    rw [List.map_cons, List.mapM_cons, ih]
    rfl

theorem addToArr_append (f : K × V → α) (c c' : List (K × V)) (arr : List (Option α)) (i : ℕ) :
    addToArr f (c ++ c') arr i = (addToArr f c arr i).bind fun p => addToArr f c' p.1 p.2 := by
  induction c generalizing arr i with
  | nil => rfl
  | cons e c ih =>
    rw [List.cons_append, addToArr, addToArr]
    split
    · exact ih _ _
    · rfl

theorem foldlM_addToArr (f : K × V → α) (buckets : List (List (K × V)))
    (p : List (Option α) × ℕ) :
    buckets.foldlM (fun p bucket => addToArr f bucket p.1 p.2) p =
      addToArr f buckets.flatten p.1 p.2 := by
  induction buckets generalizing p with
  | nil => rfl
  | cons c buckets ih =>
    rw [List.foldlM_cons, List.flatten_cons, addToArr_append]
    congr 1
    funext q
    exact ih q

theorem addToArr_eq (f : K × V → α) (c : List (K × V)) (done : List (Option α))
    (h : done.length < 2 ^ 31) :
    addToArr f c (done ++ List.replicate c.length none) done.length =
      if done.length + c.length < 2 ^ 31 then
        some (done ++ c.map fun e => some (f e), done.length + c.length)
      else none := by
  induction c generalizing done with
  | nil =>
    have hnil : done.length + ([] : List (K × V)).length < 2 ^ 31 := h
    rw [if_pos hnil]
    rfl
  | cons e c ih =>
    have hlen : done.length < (done ++ List.replicate (e :: c).length none).length := by simp
    unfold addToArr
    by_cases hi : done.length + 1 < 2 ^ 31
    · have hnext : (done ++ [some (f e)]).length = done.length + 1 := List.length_append
      have hset : (done ++ List.replicate (e :: c).length none).set done.length (some (f e)) =
          (done ++ [some (f e)]) ++ List.replicate c.length none := by
        simp [List.replicate_succ]
      rw [if_pos ⟨hlen, hi⟩, hset, ← hnext, ih _ (by omega), hnext]
      have hsum : done.length + 1 + c.length = done.length + (e :: c).length := by
        rw [List.length_cons]
        omega
      rw [hsum, List.append_assoc]
      rfl
    · have hbig : ¬ done.length + (e :: c).length < 2 ^ 31 := by
        rw [List.length_cons]
        omega
      rw [if_neg (fun hc => hi hc.2), if_neg hbig]

/-- **The arrays list every entry once, as long as an `int` can count them.** -/
theorem fillArr_eq (f : K × V → α) {m : Map K V} (h : m.size = m.entries.length) :
    m.fillArr f =
      if m.size < 2 ^ 31 then some (m.entries.map fun e => some (f e)) else none := by
  have hfill := addToArr_eq f m.entries [] (Nat.two_pow_pos 31)
  rw [List.nil_append, List.length_nil, Nat.zero_add, List.nil_append] at hfill
  unfold fillArr
  rw [foldlM_addToArr]
  show Option.map Prod.fst (addToArr f m.entries (List.replicate m.size none) 0) = _
  rw [h, hfill]
  split <;> rfl

/-- Both arrays list every entry exactly once, in the same order. -/
def Lists (m : Map K V) : Prop :=
  m.keysArr = some (m.entries.map fun e => some e.1) ∧
    m.valuesArr = some (m.entries.map fun e => some e.2)

theorem lists_iff {m : Map K V} (h : m.size = m.entries.length) :
    m.Lists ↔ m.size < 2 ^ 31 := by
  unfold Lists keysArr valuesArr
  rw [fillArr_eq _ h, fillArr_eq _ h]
  split
  · rename_i hlt
    exact ⟨fun _ => hlt, fun _ => ⟨rfl, rfl⟩⟩
  · rename_i hge
    refine ⟨fun hc => ?_, fun hlt => absurd hlt hge⟩
    cases hc.1

end Arrays

/-- **Whatever calls a map has answered, it answered them as a finite map does, its
`size()` is the number of distinct keys, every entry is in its bucket and no key occurs
twice.  `get_keys` and `get_values` list the entries exactly as long as there are fewer
than `2 ^ 31` of them.** -/
theorem serve_refines_finmap {n : ℕ} (h : 0 < n) (calls : List (Call K V)) :
    Option.Rel (fun p q => p.1 = q.1 ∧ p.2.size = q.2.keys.card ∧
        (∀ i, ∀ e ∈ p.2.bucket i, (HashKey.hash e.1).toNat % p.2.capacity = i) ∧
        Distinct p.2.entries ∧ (p.2.Lists ↔ p.2.size < 2 ^ 31))
      (serve answer (new n : Map K V) calls) (serve KeyMap.answer ∅ calls) := by
  have hall := serve_agree (K := K) (V := V) h calls
  generalize serve answer (new n : Map K V) calls = x at hall ⊢
  generalize serve KeyMap.answer (∅ : KeyMap K V) calls = y at hall ⊢
  cases hall with
  | none => exact Option.Rel.none
  | some hpq =>
    obtain ⟨hreplies, hrep⟩ := hpq
    apply Option.Rel.some
    exact ⟨hreplies, hrep.size_eq, hrep.valid.placed, hrep.valid.distinct_entries,
      lists_iff hrep.valid.size_eq⟩

def numeral (i : ℕ) : CStr := ⟨Bytes.decimal i, Bytes.decimal_nulFree i⟩

/-- A put, a read of it and a removal. -/
theorem serve_refines_finmap_one :
    Option.Rel (fun p q => p.1 = q.1 ∧ p.2.size = q.2.keys.card ∧
        (∀ i, ∀ e ∈ p.2.bucket i, (HashKey.hash e.1).toNat % p.2.capacity = i) ∧
        Distinct p.2.entries ∧ (p.2.Lists ↔ p.2.size < 2 ^ 31))
      (serve answer (new 1 : Map CStr ℕ)
        [.put (some (numeral 1)) (some 5), .get (some (numeral 1)), .remove (some (numeral 1))])
      (serve KeyMap.answer ∅
        [.put (some (numeral 1)) (some 5), .get (some (numeral 1)),
          .remove (some (numeral 1))]) :=
  serve_refines_finmap Nat.one_pos _

end Map

/-! ### More entries than an `int` can count -/

namespace KeyMap

variable {K V : Type} [HashKey K] [LawfulHashKey K]

theorem keys_insert (f : KeyMap K V) (q : KeyClass K) (v : V) :
    (f.insert q v).keys = insert q f.keys := by
  ext q'
  rw [Finmap.mem_keys, Finmap.mem_insert, Finset.mem_insert, Finmap.mem_keys]

theorem serve_puts (f : KeyMap K V) (ps : List (K × V)) :
    ∃ rs f', serve answer f (ps.map fun p => .put (some p.1) (some p.2)) = some (rs, f') ∧
      f'.keys = f.keys ∪ (ps.map fun p => of p.1).toFinset := by
  induction ps generalizing f with
  | nil => exact ⟨[], f, rfl, by simp⟩
  | cons p ps ih =>
    obtain ⟨rs, f', hf', hkeys⟩ := ih (f.insert (of p.1) p.2)
    refine ⟨.value (f.lookup (of p.1)) :: rs, f', ?_, ?_⟩
    · show (serve answer (f.insert (of p.1) p.2) _).bind _ = _
      rw [hf']
      rfl
    · rw [hkeys, keys_insert, List.map_cons, List.toFinset_cons, Finset.insert_union,
        Finset.union_insert]

end KeyMap

namespace Map

/-- Put the first `n` numbers. -/
def numerals (n : ℕ) : List (Call CStr CStr) :=
  ((List.range n).map fun i => (numeral i, numeral i)).map fun p => .put (some p.1) (some p.2)

theorem size_numerals {m : ℕ} (h : 0 < m) (n : ℕ) :
    ∃ rs map, serve answer (new m) (numerals n) = some (rs, map) ∧ map.Valid ∧ map.size = n := by
  obtain ⟨rs, f, hf, hkeys⟩ :=
    KeyMap.serve_puts (∅ : KeyMap CStr CStr) ((List.range n).map fun i => (numeral i, numeral i))
  have hinj : Function.Injective fun i => of (numeral i) := by
    intro i j hij
    have heq : numeral i = numeral j := ExactHashKey.equals_iff.mp (of_eq_of.mp hij)
    exact Bytes.decimal_inj (congrArg Subtype.val heq)
  have hcard : f.keys.card = n := by
    rw [hkeys, Finmap.keys_empty, Finset.empty_union, List.map_map, List.toFinset_card_of_nodup]
    · rw [List.length_map, List.length_range]
    · exact List.nodup_range.map hinj
  have hall := serve_agree h (numerals n)
  unfold numerals at hall ⊢
  rw [hf] at hall
  generalize serve answer (new m : Map CStr CStr) _ = x at hall ⊢
  cases hall with
  | some hpq =>
    rename_i p
    refine ⟨p.1, p.2, rfl, hpq.2.valid, ?_⟩
    rw [hpq.2.size_eq, hcard]

/-- **A map of more than `2 ^ 31` entries cannot list its keys or values.** -/
theorem lists_overflow : ∃ rs map,
    serve answer (new 4) (numerals (2 ^ 31 + 1)) = some (rs, map) ∧
      map.size = 2 ^ 31 + 1 ∧ ¬ map.Lists := by
  obtain ⟨rs, map, hrun, hvalid, hsize⟩ := size_numerals (show 0 < 4 by omega) (2 ^ 31 + 1)
  refine ⟨rs, map, hrun, hsize, ?_⟩
  rw [lists_iff hvalid.size_eq, hsize]
  omega

end Map

end Eau2
