import Eau2.Utils.HashedStr
import Eau2.Utils.MapEquals

/-!
# Strings as keys of a map

`String` objects by the order in which they were built, and a `Map` whose keys are some
of them: the map keeps pointers, so that it sees what becomes of its keys.

* `Fits`: the calls that keep every hash that of its text.
* `holds_of_fitting`: **equal strings hash alike, and a map finds its keys**, when all calls
  are such.
* `breaks_of_not_fits`: **behind any other call they soon do not**.
-/

namespace Eau2

open Bytes Serializer HashKey

namespace Map

variable {K V : Type}

/-- **A map stays in order when its keys are compared and hashed as before.** -/
theorem Valid.congr_keys {key key' : HashKey K} {m : Map K V} (h : @Valid K V key m)
    (hequals : ∀ k ∈ m.getKeys, ∀ l ∈ m.getKeys, key'.equals k l = key.equals k l)
    (hhash : ∀ k ∈ m.getKeys, key'.hash k = key.hash k) : @Valid K V key' m := by
  have hmem : ∀ {i : Nat} {e : K × V}, e ∈ m.bucket i → e.1 ∈ m.getKeys := fun he =>
    List.mem_map.mpr ⟨_, mem_entries_iff.mpr ⟨_, he⟩, rfl⟩
  refine @Valid.mk K V key' m (@Valid.cap_pos K V key m h) ?_ ?_ (@Valid.size_eq K V key m h)
  · intro i e he
    have hplaced : (key.hash e.1).toNat % m.capacity = i := @Valid.placed K V key m h i e he
    rw [← hhash e.1 (hmem he)] at hplaced
    exact hplaced
  · intro i
    have hdistinct : (m.bucket i).Pairwise fun e e' => ¬ key.equals e.1 e'.1 = true :=
      @Valid.distinct K V key m h i
    show (m.bucket i).Pairwise fun e e' => ¬ key'.equals e.1 e'.1 = true
    refine hdistinct.imp_of_mem fun {e e'} he he' hne => ?_
    rwa [hequals e.1 (hmem he) e'.1 (hmem he')]

theorem mem_getKeys_put [HashKey K] {m : Map K V} {k l : K} {v : V} (hc : 0 < m.capacity)
    (h : l ∈ (m.put k v).1.getKeys) : l = k ∨ l ∈ m.getKeys := by
  obtain ⟨e, he, rfl⟩ := List.mem_map.mp h
  obtain ⟨i, hi⟩ := mem_entries_iff.mp he
  rw [bucket_put hc] at hi
  split at hi
  · rcases mem_insertIntoBucket hi with rfl | ⟨e', he', hk⟩
    · exact Or.inl rfl
    · exact Or.inr (List.mem_map.mpr ⟨e', mem_entries_iff.mpr ⟨_, he'⟩, hk⟩)
  · exact Or.inr (List.mem_map.mpr ⟨e, mem_entries_iff.mpr ⟨_, hi⟩, rfl⟩)

theorem mem_getKeys_remove [HashKey K] {m m' : Map K V} {k l : K} {v : V} (hc : 0 < m.capacity)
    (hm : m.remove k = some (v, m')) (h : l ∈ m'.getKeys) : l ∈ m.getKeys := by
  obtain ⟨e, he, rfl⟩ := List.mem_map.mp h
  obtain ⟨i, hi⟩ := mem_entries_iff.mp he
  rw [bucket_remove hc hm] at hi
  refine List.mem_map.mpr ⟨e, mem_entries_iff.mpr ⟨i, ?_⟩, rfl⟩
  split at hi
  · exact (removeFromBucket_sublist _ _).subset hi
  · exact hi

end Map

/-- Strings by number, and a map from some of them. -/
structure StringKeys (V : Type) where
  strings : List HashedStr
  map : Map Nat V

namespace StringKeys

variable {V : Type}

/-- `s->equals(t)`, of the strings by number; a string is equal to itself. -/
def equals (strings : List HashedStr) (i j : Nat) : Option Bool := do
  let s ← strings[i]?
  let t ← strings[j]?
  if i = j then some true else s.equals t

def hash (strings : List HashedStr) (i : Nat) : Option SizeT := do
  let s ← strings[i]?
  let (hash, _) ← s.hash
  some hash

abbrev keys (strings : List HashedStr) : HashKey Nat where
  equals i j := i == j || equals strings i j == some true
  hash i := (hash strings i).getD 0

inductive Call (V : Type)
  /-- `String(cstr, len)` of `len` characters and the one behind them. -/
  | ofChars (text : Str) (next : UInt8)
  | ofCStr (str : CStr)
  /-- `String(true, cstr, len)` of `len` characters, a NUL and what the array has behind it. -/
  | stealing (text junk : Str)
  | clone (i : Nat)
  | hash (i : Nat)
  /-- `deserialize`, where the serializer stands before a size and a text. -/
  | deserialize (i : Nat) (size : SizeT) (text : CStr)
  | put (i : Nat) (val : V)
  | get (i : Nat)
  | remove (i : Nat)

def add (st : StringKeys V) (s : HashedStr) : StringKeys V :=
  { st with strings := st.strings ++ [s] }

/-- `hash()`, which keeps the hash. -/
def callHash (st : StringKeys V) (i : Nat) : Option (StringKeys V) := do
  let s ← st.strings[i]?
  let (_, s) ← s.hash
  some { st with strings := st.strings.set i s }

/-- The call of a method of the map, which begins with the hash of the key. -/
def onMap (st : StringKeys V) (i : Nat)
    (f : HashKey Nat → Map Nat V → Option (Map Nat V)) : Option (StringKeys V) := do
  let st ← callHash st i
  if st.map.capacity = 0 then none
  else
    let map ← f (keys st.strings) st.map
    some { st with map := map }

def step (st : StringKeys V) : Call V → Option (StringKeys V)
  | .ofChars text next => (HashedStr.ofChars (text ++ [next]) text.length).map st.add
  | .ofCStr str => (HashedStr.ofCStr (str.val ++ [0])).map st.add
  | .stealing text junk => (HashedStr.stealing (text ++ 0 :: junk) text.length).map st.add
  | .clone i => do
    let s ← st.strings[i]?
    let s ← s.clone
    some (st.add s)
  | .hash i => callHash st i
  | .deserialize i size text => do
    let s ← st.strings[i]?
    let (s, _) ← s.deserialize (ofBytes (HashedStr.wire size text))
    some { st with strings := st.strings.set i s }
  | .put i val => onMap st i fun key m => some (@Map.put Nat V key m i val).1
  | .get i => onMap st i fun _ m => some m
  | .remove i => onMap st i fun key m => (@Map.remove Nat V key m i).map Prod.snd

/-- The calls on no strings and `Map(capacity)`. -/
def run (capacity : Nat) (calls : List (Call V)) : Option (StringKeys V) :=
  calls.foldlM step ⟨[], Map.new capacity⟩

/-- **Equal strings have the same hash, and the map finds its keys** under every string that
equals one; nothing is read behind the array of a string. -/
structure Holds (st : StringKeys V) : Prop where
  inside : ∀ s ∈ st.strings, s.size < s.cells.length
  hash_eq : ∀ i j, equals st.strings i j = some true →
    ∃ h, hash st.strings i = some h ∧ hash st.strings j = some h
  finds : ∀ e ∈ st.map.entries, ∀ j, equals st.strings e.1 j = some true →
    @Map.get Nat V (keys st.strings) st.map j = some e.2

/-- No NUL is built in front of a last character, and a text is read over a string without a
hash or with its hash, by a size that is at most its length. -/
def Call.KeepsHashes (st : StringKeys V) : Call V → Prop
  | .ofChars text _ | .stealing text _ => HashedStr.NulLast text
  | .deserialize i size text => ∀ s, st.strings[i]? = some s → size.toNat ≤ text.val.length ∧
      (s.cached = 0 ∨ s.cached = hashChars (text.val.take size.toNat))
  | _ => True

/-- A key of the map is read over with its own text only. -/
def Call.SparesKeys (st : StringKeys V) : Call V → Prop
  | .deserialize i size text => ∀ s, st.strings[i]? = some s → i ∈ st.map.getKeys →
      s.text = text.val.take size.toNat
  | _ => True

def Call.Fits (st : StringKeys V) (c : Call V) : Prop := c.KeepsHashes st ∧ c.SparesKeys st

def Fitting : StringKeys V → List (Call V) → Prop
  | _, [] => True
  | st, c :: calls => c.Fits st ∧ ∀ st', step st c = some st' → Fitting st' calls

/-! ### Keys by their texts -/

/-- The string's text; where there is no string, its number. -/
def name (strings : List HashedStr) (i : Nat) : Nat ⊕ Str :=
  match strings[i]? with
  | some s => .inr s.text
  | none => .inl i

def AllGood (strings : List HashedStr) : Prop := ∀ s ∈ strings, HashedStr.Good s

theorem AllGood.get {strings : List HashedStr} (h : AllGood strings) {i : Nat} {s : HashedStr}
    (hi : strings[i]? = some s) : HashedStr.Good s := h s (List.mem_of_getElem? hi)

theorem AllGood.equals {strings : List HashedStr} (h : AllGood strings) {i j : Nat}
    {s t : HashedStr} (hi : strings[i]? = some s) (hj : strings[j]? = some t) :
    equals strings i j = some (decide (s.text = t.text)) := by
  rw [StringKeys.equals, hi, hj, Option.bind_eq_bind, Option.bind_some, Option.bind_some]
  by_cases hij : i = j
  · subst hij
    obtain rfl : s = t := Option.some.inj (hi.symm.trans hj)
    rw [if_pos rfl, decide_eq_true rfl]
  · rw [if_neg hij, HashedStr.equals_good (h.get hi) (h.get hj)]

theorem AllGood.hash {strings : List HashedStr} (h : AllGood strings) {i : Nat} {s : HashedStr}
    (hi : strings[i]? = some s) : hash strings i = some (hashChars s.text) := by
  obtain ⟨s', hhash, -⟩ := HashedStr.hash_good (h.get hi)
  rw [StringKeys.hash, hi, Option.bind_eq_bind, Option.bind_some, hhash]
  rfl

theorem name_eq {strings : List HashedStr} {i : Nat} {s : HashedStr}
    (hi : strings[i]? = some s) : name strings i = .inr s.text := by
  rw [name, hi]

theorem name_eq_none {strings : List HashedStr} {i : Nat} (hi : strings[i]? = none) :
    name strings i = .inl i := by
  rw [name, hi]

/-- **Good strings are keys by their texts.** -/
theorem AllGood.keys_equals {strings : List HashedStr} (h : AllGood strings) (i j : Nat) :
    (keys strings).equals i j = true ↔ name strings i = name strings j := by
  show (i == j || StringKeys.equals strings i j == some true) = true ↔ _
  rw [Bool.or_eq_true, beq_iff_eq, beq_iff_eq]
  -- of two places only one of which has a string
  have hmissing : strings[i]? ≠ strings[j]? → StringKeys.equals strings i j = none →
      ¬ (i = j ∨ StringKeys.equals strings i j = some true) := by
    intro hne hnone
    rintro (rfl | hc)
    · exact hne rfl
    · rw [hnone] at hc
      cases hc
  cases hi : strings[i]? with
  | none =>
    have hnone : StringKeys.equals strings i j = none := by rw [StringKeys.equals, hi]; rfl
    rw [name_eq_none hi]
    cases hj : strings[j]? with
    | none => rw [name_eq_none hj, hnone]; simp
    | some t =>
      rw [name_eq hj]
      exact iff_of_false (hmissing (by simp [hi, hj]) hnone) fun hc => by cases hc
  | some s =>
    rw [name_eq hi]
    cases hj : strings[j]? with
    | none =>
      have hnone : StringKeys.equals strings i j = none := by rw [StringKeys.equals, hi, hj]; rfl
      rw [name_eq_none hj]
      exact iff_of_false (hmissing (by simp [hi, hj]) hnone) fun hc => by cases hc
    | some t =>
      rw [name_eq hj, h.equals hi hj, Option.some.injEq, decide_eq_true_eq, Sum.inr.injEq]
      refine ⟨?_, Or.inr⟩
      rintro (rfl | htext)
      · rw [Option.some.inj (hi.symm.trans hj)]
      · exact htext

theorem AllGood.keys_hash {strings : List HashedStr} (h : AllGood strings) (i : Nat) :
    (keys strings).hash i = match name strings i with
      | .inl _ => 0
      | .inr text => hashChars text := by
  show (StringKeys.hash strings i).getD 0 = _
  cases hi : strings[i]? with
  | none =>
    rw [name_eq_none hi, StringKeys.hash, hi]
    rfl
  | some s =>
    rw [name_eq hi, h.hash hi]
    rfl

theorem AllGood.lawful {strings : List HashedStr} (h : AllGood strings) :
    @LawfulHashKey Nat (keys strings) :=
  @LawfulHashKey.mk Nat (keys strings) (fun i => (h.keys_equals i i).mpr rfl)
    (fun hij => (h.keys_equals _ _).mpr ((h.keys_equals _ _).mp hij).symm)
    (fun hij hjk => (h.keys_equals _ _).mpr
      (((h.keys_equals _ _).mp hij).trans ((h.keys_equals _ _).mp hjk)))
    (fun hij => by rw [h.keys_hash, h.keys_hash, (h.keys_equals _ _).mp hij])

/-! ### One call -/

/-- Good strings, and a map in order whose keys are among them. -/
structure Sound (st : StringKeys V) : Prop where
  good : AllGood st.strings
  keys_lt : ∀ k ∈ st.map.getKeys, k < st.strings.length
  valid : 0 < st.map.capacity → @Map.Valid Nat V (keys st.strings) st.map

theorem Sound.holds {st : StringKeys V} (h : Sound st) : Holds st where
  inside s hs := (h.good s hs).fits
  hash_eq i j heq := by
    obtain ⟨s, hi, hrest⟩ := Option.bind_eq_some_iff.mp heq
    obtain ⟨t, hj, -⟩ := Option.bind_eq_some_iff.mp hrest
    have htext : s.text = t.text :=
      of_decide_eq_true (Option.some.inj ((h.good.equals hi hj).symm.trans heq))
    exact ⟨hashChars s.text, h.good.hash hi, by rw [h.good.hash hj, htext]⟩
  finds e he j heq := by
    have hcap : 0 < st.map.capacity := by
      obtain ⟨c, hc, -⟩ := List.mem_flatten.mp he
      exact List.length_pos_of_mem hc
    have hkeys : (keys st.strings).equals e.1 j = true := by
      show (e.1 == j || equals st.strings e.1 j == some true) = true
      rw [heq]
      exact Bool.or_true _
    have hlawful := h.good.lawful
    rw [← @Map.get_eq_of_equals Nat V (keys st.strings) hlawful st.map e.1 j hkeys]
    exact @Map.get_of_mem_entries Nat V (keys st.strings) hlawful st.map (h.valid hcap) e he

/-- Strings may change as long as the keys of the map keep their texts. -/
theorem Sound.rename {st : StringKeys V} (h : Sound st) {strings : List HashedStr}
    (hgood : AllGood strings) (hlen : st.strings.length ≤ strings.length)
    (hname : ∀ k ∈ st.map.getKeys, name strings k = name st.strings k) :
    Sound { st with strings := strings } where
  good := hgood
  keys_lt k hk := Nat.lt_of_lt_of_le (h.keys_lt k hk) hlen
  valid hcap := by
    refine Map.Valid.congr_keys (h.valid hcap) (fun k hk l hl => ?_) fun k hk => ?_
    · rw [Bool.eq_iff_iff, hgood.keys_equals, h.good.keys_equals, hname k hk, hname l hl]
    · rw [hgood.keys_hash, h.good.keys_hash, hname k hk]

theorem Sound.add {st : StringKeys V} (h : Sound st) {s : HashedStr} (hs : HashedStr.Good s) :
    Sound (st.add s) := by
  refine h.rename ?_ ?_ fun k hk => ?_
  · intro t ht
    rcases List.mem_append.mp ht with ht | ht
    · exact h.good t ht
    · rwa [List.mem_singleton.mp ht]
  · rw [List.length_append]
    exact Nat.le_add_right _ _
  · rw [name, name, List.getElem?_append_left (h.keys_lt k hk)]

theorem Sound.set {st : StringKeys V} (h : Sound st) {i : Nat} {s s' : HashedStr}
    (hi : st.strings[i]? = some s) (hs' : HashedStr.Good s')
    (htext : i ∈ st.map.getKeys → s'.text = s.text) :
    Sound { st with strings := st.strings.set i s' } := by
  have hlt : i < st.strings.length := (List.getElem?_eq_some_iff.mp hi).1
  refine h.rename ?_ (by rw [List.length_set]) fun k hk => ?_
  · intro t ht
    rcases List.mem_or_eq_of_mem_set ht with ht | rfl
    · exact h.good t ht
    · exact hs'
  · by_cases hki : k = i
    · subst hki
      rw [name_eq (List.getElem?_set_self hlt), name_eq hi, htext hk]
    · rw [name, name, List.getElem?_set_ne (Ne.symm hki)]

theorem Sound.callHash {st st' : StringKeys V} (h : Sound st) {i : Nat}
    (hcall : callHash st i = some st') : Sound st' ∧ i < st'.strings.length := by
  rw [StringKeys.callHash] at hcall
  obtain ⟨s, hi, hcall⟩ := Option.bind_eq_some_iff.mp hcall
  obtain ⟨s', hhash, hgood, htext⟩ := HashedStr.hash_good (h.good.get hi)
  rw [hhash] at hcall
  cases hcall
  refine ⟨h.set hi hgood fun _ => htext, ?_⟩
  show i < (st.strings.set i s').length
  rw [List.length_set]
  exact (List.getElem?_eq_some_iff.mp hi).1

theorem Sound.onMap {st st' : StringKeys V} (h : Sound st) {i : Nat}
    {f : HashKey Nat → Map Nat V → Option (Map Nat V)} (hcall : onMap st i f = some st')
    (hf : ∀ (key : HashKey Nat) (m m' : Map Nat V), @LawfulHashKey Nat key →
      @Map.Valid Nat V key m → f key m = some m' →
      @Map.Valid Nat V key m' ∧ ∀ k ∈ m'.getKeys, k = i ∨ k ∈ m.getKeys) : Sound st' := by
  rw [StringKeys.onMap] at hcall
  obtain ⟨st₁, hhash, hcall⟩ := Option.bind_eq_some_iff.mp hcall
  obtain ⟨h₁, hi⟩ := h.callHash hhash
  split at hcall
  · cases hcall
  rename_i hcap
  obtain ⟨m', hm', hcall⟩ := Option.bind_eq_some_iff.mp hcall
  cases hcall
  obtain ⟨hvalid, hkeys⟩ := hf (keys st₁.strings) st₁.map m' h₁.good.lawful
    (h₁.valid (Nat.pos_of_ne_zero hcap)) hm'
  refine ⟨h₁.good, fun k hk => ?_, fun _ => hvalid⟩
  rcases hkeys k hk with rfl | hk
  · exact hi
  · exact h₁.keys_lt k hk

/-- **A call that fits keeps strings and map sound.** -/
theorem Sound.step {st st' : StringKeys V} (h : Sound st) {c : Call V} (hfits : c.Fits st)
    (hstep : step st c = some st') : Sound st' := by
  cases c with
  | ofChars text next =>
    rw [StringKeys.step, HashedStr.ofChars_eq] at hstep
    cases hstep
    exact h.add (HashedStr.good_built [] hfits.1)
  | ofCStr str =>
    rw [StringKeys.step, HashedStr.ofCStr_eq] at hstep
    cases hstep
    exact h.add (HashedStr.good_built [] (HashedStr.NulFree.nulLast str.2))
  | stealing text junk =>
    rw [StringKeys.step, HashedStr.stealing_eq] at hstep
    cases hstep
    exact h.add (HashedStr.good_built junk hfits.1)
  | clone i =>
    obtain ⟨s, hi, hstep⟩ := Option.bind_eq_some_iff.mp hstep
    obtain ⟨s', hclone, hgood, -⟩ := HashedStr.clone_good (h.good.get hi)
    rw [hclone] at hstep
    cases hstep
    exact h.add hgood
  | hash i => exact (h.callHash hstep).1
  | deserialize i size text =>
    obtain ⟨s, hi, hstep⟩ := Option.bind_eq_some_iff.mp hstep
    obtain ⟨ser, hread, -⟩ := HashedStr.reads_deserialize s size text
      (ofBytes (HashedStr.wire size text)) [] (List.append_nil _).symm
    rw [hread] at hstep
    cases hstep
    obtain ⟨hsize, hcached⟩ := hfits.1 s hi
    refine h.set hi (HashedStr.good_deserialized hsize hcached) fun hkey => ?_
    rw [hfits.2 s hi hkey]
    exact List.take_append_of_le_length hsize
  | put i val =>
    rw [StringKeys.step] at hstep
    refine h.onMap hstep fun key m m' hlawful hvalid hm' => ?_
    cases hm'
    exact ⟨@Map.Valid.put Nat V key hlawful m hvalid i val, fun k hk =>
      @Map.mem_getKeys_put Nat V key m i k val (@Map.Valid.cap_pos Nat V key m hvalid) hk⟩
  | get i =>
    rw [StringKeys.step] at hstep
    refine h.onMap hstep fun key m m' hlawful hvalid hm' => ?_
    cases hm'
    exact ⟨hvalid, fun k hk => Or.inr hk⟩
  | remove i =>
    rw [StringKeys.step] at hstep
    refine h.onMap hstep fun key m m' hlawful hvalid hm' => ?_
    obtain ⟨⟨v, m₁⟩, hremove, rfl⟩ := Option.map_eq_some_iff.mp hm'
    exact ⟨@Map.Valid.remove Nat V key hlawful m m₁ i v hvalid hremove, fun k hk => Or.inr
      (@Map.mem_getKeys_remove Nat V key m m₁ i k v (@Map.Valid.cap_pos Nat V key m hvalid) hremove
        hk)⟩

/-! ### All calls -/

theorem sound_new (capacity : Nat) : Sound (⟨[], Map.new capacity⟩ : StringKeys V) where
  good s hs := by cases hs
  keys_lt k hk := by
    rw [Map.getKeys, Map.entries, Map.new] at hk
    simp at hk
  valid hcap := by
    rw [Map.capacity_new] at hcap
    exact @Map.valid_new Nat V (keys []) capacity hcap

theorem Fitting.sound {st : StringKeys V} {calls : List (Call V)} (h : Fitting st calls)
    (hst : Sound st) {made : List (Call V)} (hp : made <+: calls) {st' : StringKeys V}
    (hrun : made.foldlM step st = some st') : Sound st' := by
  induction made generalizing st calls with
  | nil =>
    cases hrun
    exact hst
  | cons c made ih =>
    obtain ⟨rest, rfl⟩ := hp
    rw [List.foldlM_cons] at hrun
    obtain ⟨st₁, hstep, hrest⟩ := Option.bind_eq_some_iff.mp hrun
    exact ih (h.2 st₁ hstep) (hst.step h.1 hstep) (List.prefix_append made rest) hrest

/-- **As long as all calls fit, equal strings hash alike and the map finds its keys.** -/
theorem holds_of_fitting {capacity : Nat} {calls : List (Call V)}
    (h : Fitting ⟨[], Map.new capacity⟩ calls) {made : List (Call V)} (hp : made <+: calls)
    {st : StringKeys V} (hrun : run capacity made = some st) : Holds st :=
  (h.sound (sound_new capacity) hp hrun).holds

theorem Fitting.cons {st st' : StringKeys V} {c : Call V} {calls : List (Call V)}
    (hfits : c.Fits st) (hstep : step st c = some st') (hrest : Fitting st' calls) :
    Fitting st (c :: calls) := by
  refine ⟨hfits, fun st₁ h₁ => ?_⟩
  rw [hstep] at h₁
  cases h₁
  exact hrest

/-- A key of the map, and a string that is read over with the key's text. -/
theorem holds_of_fitting_key : ∃ st, run 4 [.ofCStr ⟨[97], CStr.nulFree_a⟩, .put 0 5,
      .ofChars [98] 0, .deserialize 1 1 ⟨[97], CStr.nulFree_a⟩, .hash 1] = some st ∧
    Holds st ∧ st.map.entries = [(0, 5)] ∧ equals st.strings 0 1 = some true := by
  have hfit : Fitting ⟨[], Map.new 4⟩ [.ofCStr ⟨[97], CStr.nulFree_a⟩, .put 0 5,
      .ofChars [98] 0, .deserialize 1 1 ⟨[97], CStr.nulFree_a⟩, .hash 1] := by
    refine Fitting.cons ⟨trivial, trivial⟩ rfl ?_
    refine Fitting.cons ⟨trivial, trivial⟩ rfl ?_
    refine Fitting.cons ⟨show HashedStr.NulLast [98] by decide, trivial⟩ rfl ?_
    refine Fitting.cons ⟨fun s hs => ?_, fun s hs hkey => ?_⟩ rfl ?_
    · cases hs
      exact ⟨by decide, Or.inl rfl⟩
    · exact absurd hkey (by decide)
    · exact Fitting.cons ⟨trivial, trivial⟩ rfl trivial
  exact ⟨_, rfl, holds_of_fitting hfit (List.prefix_refl _) rfl, rfl, rfl⟩

/-! ### The calls that do not fit -/

theorem step_ofChars (st : StringKeys V) (text : Str) (next : UInt8) :
    step st (.ofChars text next) = some (st.add ⟨text ++ [0], text.length, 0⟩) := by
  rw [step, HashedStr.ofChars_eq]
  rfl

/-- A string and the next one, equal with different hashes. -/
theorem not_holds_of_ne {st : StringKeys V} {i : Nat} {s t : HashedStr}
    (hi : st.strings[i]? = some s) (hequals : s.equals t = some true) {hs ht : SizeT}
    (hhs : s.hash.map Prod.fst = some hs) (hht : t.hash.map Prod.fst = some ht)
    (hne : hs ≠ ht) : ¬ Holds (st.add t) := by
  have hlt := (List.getElem?_eq_some_iff.mp hi).1
  have hi' : (st.add t).strings[i]? = some s := by
    rw [← hi]
    exact List.getElem?_append_left hlt
  have hj : (st.add t).strings[st.strings.length]? = some t := List.getElem?_concat_length
  have heq : equals (st.add t).strings i st.strings.length = some true := by
    rw [equals, hi', hj, Option.bind_eq_bind, Option.bind_some, Option.bind_some, if_neg hlt.ne,
      hequals]
  have hhash : ∀ {k : Nat} {u : HashedStr}, (st.add t).strings[k]? = some u →
      hash (st.add t).strings k = u.hash.map Prod.fst := by
    intro k u hk
    rw [hash, hk, Option.bind_eq_bind, Option.bind_some]
    cases u.hash <;> rfl
  intro h
  obtain ⟨v, hv, hv'⟩ := h.hash_eq i st.strings.length heq
  rw [hhash hi', hhs] at hv
  rw [hhash hj, hht] at hv'
  exact hne ((Option.some.inj hv).trans (Option.some.inj hv').symm)

/-- A text with a NUL in front of its last character is built, and then one that ends otherwise. -/
theorem breaks_add (st : StringKeys V) {text : Str} (h : ¬ HashedStr.NulLast text)
    (rest : List UInt8) : ∃ text', ∀ st', step (st.add ⟨text ++ 0 :: rest, text.length, 0⟩)
      (.ofChars text' 0) = some st' → ¬ Holds st' := by
  obtain ⟨text', hlen, hcstr, hne⟩ := HashedStr.exists_equal h
  refine ⟨text', fun st' hstep => ?_⟩
  rw [step_ofChars] at hstep
  cases hstep
  have hsize : ∀ (cs rest : Str), cs.length ≤ (cs ++ 0 :: rest).length := fun cs rest => by
    rw [List.length_append]
    exact Nat.le_add_right _ _
  refine not_holds_of_ne List.getElem?_concat_length ?_
    (HashedStr.hash_built rfl (hsize text rest)) (HashedStr.hash_built rfl (hsize text' [])) ?_
  · refine HashedStr.equals_of_cstr_eq hlen.symm (hsize text rest) (hsize text' []) ?_
    rw [HashedStr.text_append rfl, HashedStr.text_append rfl, hcstr]
  · rw [HashedStr.text_append rfl, HashedStr.text_append rfl]
    exact hne.symm

/-- **A call that does not keep hashes breaks them**: at once, or when one more string is built. -/
theorem breaks_of_not_fits {st : StringKeys V} {c : Call V} (hc : ¬ c.KeepsHashes st) :
    ∃ st', step st c = some st' ∧ (¬ Holds st' ∨
      ∃ text, ∀ st'', step st' (.ofChars text 0) = some st'' → ¬ Holds st'') := by
  cases c with
  | ofChars text next => exact ⟨_, step_ofChars st text next, Or.inr (breaks_add st hc [])⟩
  | stealing text junk =>
    refine ⟨_, ?_, Or.inr (breaks_add st hc junk)⟩
    rw [step, HashedStr.stealing_eq]
    rfl
  | deserialize i size text =>
    rw [Call.KeepsHashes] at hc
    push Not at hc
    obtain ⟨s, hi, hs⟩ := hc
    have hlt := (List.getElem?_eq_some_iff.mp hi).1
    obtain ⟨ser, hread, -⟩ := HashedStr.reads_deserialize s size text
      (ofBytes (HashedStr.wire size text)) [] (List.append_nil _).symm
    refine ⟨{ st with strings := st.strings.set i ⟨text.val ++ [0], size.toNat, s.cached⟩ }, ?_, ?_⟩
    · show (st.strings[i]?).bind _ = _
      rw [hi, Option.bind_some]
      show (s.deserialize (ofBytes (HashedStr.wire size text))).bind _ = _
      rw [hread]
      rfl
    · by_cases hsize : size.toNat ≤ text.val.length
      · right
        obtain ⟨hcached, hne⟩ := hs hsize
        refine ⟨text.val.take size.toNat, fun st'' hstep => ?_⟩
        rw [step_ofChars] at hstep
        cases hstep
        have hlen : (text.val.take size.toNat).length = size.toNat := List.length_take_of_le hsize
        have hread' : size.toNat ≤ (text.val ++ [0]).length := by
          rw [List.length_append]
          omega
        have hbuilt : (text.val.take size.toNat).length ≤
            (text.val.take size.toNat ++ [0]).length := by
          rw [List.length_append]
          exact Nat.le_add_right _ _
        refine not_holds_of_ne (List.getElem?_set_self hlt) ?_ (HashedStr.hash_cached hcached)
          (HashedStr.hash_built rfl hbuilt) ?_
        · refine HashedStr.equals_of_cstr_eq hlen.symm hread' hbuilt (congrArg cstr ?_)
          rw [HashedStr.text_append rfl]
          exact List.take_append_of_le_length hsize
        · rwa [HashedStr.text_append rfl]
      · left
        intro h
        have hinside := h.inside _ (List.mem_of_getElem? (List.getElem?_set_self hlt))
        rw [List.length_append, List.length_singleton] at hinside
        exact hsize (Nat.le_of_lt_succ hinside)
  | _ => exact absurd trivial hc

/-- Two strings that differ behind a NUL, and a string that is read over once it has a hash. -/
theorem equal_hashes_differ :
    (∃ st, run 4 [.ofChars [97, 0, 98] 0, .ofChars [97, 0, 99] 0] = some st ∧
      equals st.strings 0 1 = some true ∧ hash st.strings 0 ≠ hash st.strings 1 ∧
      ¬ Holds (V := Nat) st) ∧
    ∃ st, run 4 [.ofCStr ⟨[97], CStr.nulFree_a⟩, .hash 0,
        .deserialize 0 1 ⟨[98], CStr.nulFree_b⟩, .ofCStr ⟨[98], CStr.nulFree_b⟩] = some st ∧
      equals st.strings 0 1 = some true ∧ hash st.strings 0 ≠ hash st.strings 1 ∧
      ¬ Holds (V := Nat) st := by
  have hbreak : ∀ {st : StringKeys Nat}, equals st.strings 0 1 = some true →
      hash st.strings 0 ≠ hash st.strings 1 → ¬ Holds st := by
    intro st heq hne h
    obtain ⟨v, h₀, h₁⟩ := h.hash_eq 0 1 heq
    exact hne (h₀.trans h₁.symm)
  obtain ⟨st, hrun, heq, hne⟩ : ∃ st : StringKeys Nat,
      run 4 [.ofChars [97, 0, 98] 0, .ofChars [97, 0, 99] 0] = some st ∧
      equals st.strings 0 1 = some true ∧ hash st.strings 0 ≠ hash st.strings 1 :=
    ⟨_, rfl, rfl, by decide⟩
  obtain ⟨st', hrun', heq', hne'⟩ : ∃ st : StringKeys Nat,
      run 4 [.ofCStr ⟨[97], CStr.nulFree_a⟩, .hash 0,
        .deserialize 0 1 ⟨[98], CStr.nulFree_b⟩, .ofCStr ⟨[98], CStr.nulFree_b⟩] = some st ∧
      equals st.strings 0 1 = some true ∧ hash st.strings 0 ≠ hash st.strings 1 :=
    ⟨_, rfl, rfl, by decide⟩
  exact ⟨⟨st, hrun, heq, hne, hbreak heq hne⟩, st', hrun', heq', hne', hbreak heq' hne'⟩

end StringKeys

end Eau2
