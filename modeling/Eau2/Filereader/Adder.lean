import Eau2.Dataframe.Sheet

/-!
# Counting words

`filereader/adder.h` and the `SIMap` of `utils/map.h`.  An `Adder` adds one to the count of
the word in the first column of every row, whatever the other columns hold; a count is an
`int`, and one that overflows is `none`.

* `Tally`: a map holds some counts.
* `adder_spec`: an `Adder` that was run on some words has counted them.
-/

namespace Eau2

/-- `SIMap`: from words to counts. -/
abbrev SIMap := Map CStr Int32

def SIMap.new : SIMap := Map.new 4

def Row.getString (r : Row) (col : Nat) : Option CStr :=
  match r.get .Str col with
  | some (.str s) => some s
  | _ => none

/-- What `Adder::visit` counts on from. -/
def SIMap.num (map : SIMap) (word : CStr) : Option Int32 :=
  if map.containsKey word then map.get word else some 0

/-- What `Adder::visit` does with a word. -/
def SIMap.addWord (map : SIMap) (word : CStr) : Option SIMap := do
  let num ← map.num word
  if num = 2147483647 then none else pure (map.put word (num + 1)).1

def adder : Reader SIMap := fun map row => do
  let word ← row.getString 0
  map.addWord word

/-- The map holds the counts `f`, and nothing for a word that does not occur. -/
structure Tally (m : SIMap) (f : CStr → ℕ) : Prop where
  valid : m.Valid
  lt : ∀ w, f w < 2 ^ 31
  get : ∀ w, m.get w = if f w = 0 then none else some (Int32.ofNat (f w))

theorem tally_new : Tally SIMap.new fun _ => 0 where
  valid := Map.valid_new (by decide)
  lt w := by norm_num
  get w := Map.get_new 4 w

theorem ofNat_eq_max {n : ℕ} (h : n < 2 ^ 31) : Int32.ofNat n = 2147483647 ↔ n + 1 = 2 ^ 31 := by
  rw [← Int32.toInt_inj, Int32.toInt_ofNat_of_lt h]
  show (n : ℤ) = 2147483647 ↔ _
  omega

theorem Tally.addWord {m : SIMap} {f : CStr → ℕ} (h : Tally m f) (w : CStr) :
    (f w + 1 = 2 ^ 31 ∧ SIMap.addWord m w = none) ∨
      ∃ m', SIMap.addWord m w = some m' ∧ Tally m' fun w' => f w' + if w' = w then 1 else 0 := by
  have hnum : SIMap.num m w = some (Int32.ofNat (f w)) := by
    rw [SIMap.num, Map.containsKey, h.get w]
    by_cases h0 : f w = 0
    · rw [if_pos h0, h0]
      rfl
    · rw [if_neg h0]
      rfl
  by_cases hmax : f w + 1 = 2 ^ 31
  · left
    refine ⟨hmax, ?_⟩
    rw [SIMap.addWord, hnum]
    exact if_pos ((ofNat_eq_max (h.lt w)).mpr hmax)
  · right
    refine ⟨(m.put w (Int32.ofNat (f w) + 1)).1, ?_, h.valid.put _ _, fun w' => ?_, fun w' => ?_⟩
    · rw [SIMap.addWord, hnum]
      exact if_neg fun hc => hmax ((ofNat_eq_max (h.lt w)).mp hc)
    · have hw := h.lt w
      have hw' := h.lt w'
      split
      · rename_i he
        rw [he]
        omega
      · exact hw'
    · rw [Map.get_put h.valid.cap_pos]
      by_cases he : w = w'
      · subst he
        rw [if_pos (ExactHashKey.equals_iff.mpr rfl), if_pos rfl, if_neg (Nat.succ_ne_zero _),
          Int32.ofNat_add]
        rfl
      · rw [if_neg fun hc => he (ExactHashKey.equals_iff.mp hc), if_neg (Ne.symm he), Nat.add_zero]
        exact h.get w'

theorem count_cons (w w' : CStr) (ws : List CStr) :
    (w :: ws).count w' = (if w' = w then 1 else 0) + ws.count w' := by
  rw [List.count_cons, Nat.add_comm]
  congr 1
  simp only [beq_iff_eq]
  exact if_congr eq_comm rfl rfl

/-- **An `Adder` counts the words it is run on.** -/
theorem Tally.foldlM {m : SIMap} {f : CStr → ℕ} (h : Tally m f) {ws : List CStr} {m' : SIMap}
    (hm : ws.foldlM SIMap.addWord m = some m') : Tally m' fun w => f w + ws.count w := by
  induction ws generalizing m f with
  | nil =>
    cases hm
    exact h
  | cons w ws ih =>
    rw [List.foldlM_cons] at hm
    obtain ⟨m₁, h₁, hm⟩ := Option.bind_eq_some_iff.mp hm
    rcases h.addWord w with ⟨-, hnone⟩ | ⟨m₂, h₂, ht⟩
    · rw [hnone] at h₁
      cases h₁
    · rw [h₂] at h₁
      cases h₁
      have := ih ht hm
      simpa only [count_cons, Nat.add_assoc] using this

theorem Tally.foldlM_isSome {m : SIMap} {f : CStr → ℕ} (h : Tally m f) {ws : List CStr}
    (hlt : ∀ w, f w + ws.count w < 2 ^ 31) : (ws.foldlM SIMap.addWord m).isSome := by
  induction ws generalizing m f with
  | nil => rfl
  | cons w ws ih =>
    rw [List.foldlM_cons]
    rcases h.addWord w with ⟨hmax, -⟩ | ⟨m₂, h₂, ht⟩
    · have := hlt w
      rw [count_cons, if_pos rfl] at this
      omega
    · rw [h₂]
      refine ih ht fun w' => ?_
      have := hlt w'
      rwa [count_cons, ← Nat.add_assoc] at this

theorem adder_spec {rows : List Row} {ws : List CStr}
    (h : rows.mapM (fun r => r.getString 0) = some ws) (m : SIMap) :
    rows.foldlM adder m = ws.foldlM SIMap.addWord m := by
  induction rows generalizing ws m with
  | nil =>
    cases h
    rfl
  | cons r rows ih =>
    rw [List.mapM_cons] at h
    obtain ⟨w, hw, h⟩ := Option.bind_eq_some_iff.mp h
    obtain ⟨ws', hws, h⟩ := Option.bind_eq_some_iff.mp h
    cases h
    rw [List.foldlM_cons, List.foldlM_cons, adder, hw]
    show (SIMap.addWord m w).bind _ = _
    cases SIMap.addWord m w with
    | none => rfl
    | some m' => exact ih hws m'

end Eau2
