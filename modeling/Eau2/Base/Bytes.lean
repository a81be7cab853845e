import Mathlib

/-!
# Bytes

The byte-level facts every format of the development is read back with: a
number laid out low byte first (`le`, `unle`), the part of a byte string that
`strlen` sees (`cstr`), and a number in decimal (`decimal`), which is how block
numbers end up inside keys.

* `unle_le`: a number below `256 ^ w` survives its `w` bytes.
* `takeWhile_append_zero`: a NUL-free string is exactly what stands before the
  first NUL after it.
* `decimal_inj`, `not_mem_decimal`: distinct numbers are spelled differently and
  no spelling holds a byte outside the ten digits.
* `append_sep_inj`: two texts ending in a separator and a separator-free tail
  agree only when both parts do.
-/

namespace Eau2.Bytes

/-! ### Little-endian numbers -/

/-- The low `w` bytes of `n`, low byte first. -/
def le : Nat → Nat → List UInt8
  | 0, _ => []
  | w + 1, n => UInt8.ofNat n :: le w (n / 256)

/-- The number a list of bytes spells, low byte first. -/
def unle : List UInt8 → Nat
  | [] => 0
  | b :: bs => b.toNat + 256 * unle bs

@[simp] theorem le_length (w n : Nat) : (le w n).length = w := by
  induction w generalizing n with
  | zero => rfl
  | succ w ih => rw [le, List.length_cons, ih]

/-- **A number below `256 ^ w` survives its `w` bytes.** -/
theorem unle_le {w n : Nat} (h : n < 256 ^ w) : unle (le w n) = n := by
  induction w generalizing n with
  | zero =>
    have hn : n = 0 := by simpa using h
    subst hn
    rfl
  | succ w ih =>
    have hq : n / 256 < 256 ^ w := by
      rw [Nat.div_lt_iff_lt_mul (by decide), ← Nat.pow_succ]
      exact h
    have hb : (UInt8.ofNat n).toNat = n % 256 := by simp
    rw [le, unle, ih hq, hb]
    omega

/-! ### C strings -/

def NulFree (bs : List UInt8) : Prop := (0 : UInt8) ∉ bs

instance (bs : List UInt8) : Decidable (NulFree bs) := inferInstanceAs (Decidable (_ ∉ _))

/-- What `strlen` and the functions built on it see: the bytes before the first
NUL. -/
def cstr (bs : List UInt8) : List UInt8 := bs.takeWhile (· ≠ 0)

theorem cstr_nulFree (bs : List UInt8) : NulFree (cstr bs) := by
  intro h
  have := List.mem_takeWhile_imp h
  simp at this

theorem nulFree_append {as bs : List UInt8} (ha : NulFree as) (hb : NulFree bs) :
    NulFree (as ++ bs) := by
  intro h
  rcases List.mem_append.mp h with h | h
  · exact ha h
  · exact hb h

theorem takeWhile_append_zero {bs : List UInt8} (h : NulFree bs) (rest : List UInt8) :
    (bs ++ 0 :: rest).takeWhile (· ≠ 0) = bs := by
  induction bs with
  | nil => simp
  | cons b bs ih =>
    have hb : b ≠ 0 := fun he => h (he ▸ List.mem_cons_self)
    have hbs : NulFree bs := fun hm => h (List.mem_cons_of_mem b hm)
    rw [List.cons_append, List.takeWhile_cons, if_pos (by simpa using hb), ih hbs]

theorem cstr_of_nulFree {bs : List UInt8} (h : NulFree bs) : cstr bs = bs := by
  rw [cstr, List.takeWhile_eq_self_iff]
  intro b hb
  simpa using fun he : b = 0 => h (he ▸ hb)

/-! ### Decimal numbers -/

def digit (d : Nat) : UInt8 := UInt8.ofNat (48 + d)

/-- `decimal` with its recursion bounded by the first argument. -/
def decimalAux : Nat → Nat → List UInt8
  | 0, n => [digit n]
  | fuel + 1, n => if n < 10 then [digit n] else decimalAux fuel (n / 10) ++ [digit (n % 10)]

/-- A number as `std::to_string` writes it. -/
def decimal (n : Nat) : List UInt8 := decimalAux n n

theorem decimalAux_fuel {fuel n : Nat} (h : n ≤ fuel) : decimalAux fuel n = decimal n := by
  have key : ∀ m fuel, m ≤ fuel → ∀ fuel', m ≤ fuel' → decimalAux fuel m = decimalAux fuel' m := by
    intro m
    induction m using Nat.strong_induction_on with
    | _ m ih =>
      intro fuel hf fuel' hf'
      by_cases hm : m < 10
      · cases fuel <;> cases fuel' <;> simp [decimalAux, hm]
      · obtain ⟨f, rfl⟩ : ∃ f, fuel = f + 1 := ⟨fuel - 1, by omega⟩
        obtain ⟨f', rfl⟩ : ∃ f', fuel' = f' + 1 := ⟨fuel' - 1, by omega⟩
        rw [decimalAux, decimalAux, if_neg hm, if_neg hm,
          ih (m / 10) (by omega) f (by omega) f' (by omega)]
  exact key n fuel h n le_rfl

theorem decimal_lt {n : Nat} (h : n < 10) : decimal n = [digit n] := by
  cases n with
  | zero => rfl
  | succ n => rw [decimal, decimalAux, if_pos h]

theorem decimal_ge {n : Nat} (h : 10 ≤ n) : decimal n = decimal (n / 10) ++ [digit (n % 10)] := by
  obtain ⟨m, rfl⟩ : ∃ m, n = m + 1 := ⟨n - 1, by omega⟩
  rw [decimal, decimalAux, if_neg (by omega), decimalAux_fuel (by omega)]

theorem digit_toNat {d : Nat} (h : d < 10) : (digit d).toNat = 48 + d := by
  rw [digit, UInt8.toNat_ofNat_of_lt' (by simp only [UInt8.size]; omega)]

theorem digit_inj {d e : Nat} (hd : d < 10) (he : e < 10) (h : digit d = digit e) : d = e := by
  have := congrArg UInt8.toNat h
  rw [digit_toNat hd, digit_toNat he] at this
  omega

theorem decimal_ne_nil (n : Nat) : decimal n ≠ [] := by
  by_cases h : n < 10
  · rw [decimal_lt h]; simp
  · rw [decimal_ge (by omega)]; simp

/-- **Distinct numbers have distinct spellings.** -/
theorem decimal_inj : ∀ {n m : Nat}, decimal n = decimal m → n = m := by
  intro n
  induction n using Nat.strong_induction_on with
  | _ n ih =>
    intro m h
    by_cases hn : n < 10
    · by_cases hm : m < 10
      · rw [decimal_lt hn, decimal_lt hm] at h
        exact digit_inj hn hm (List.head_eq_of_cons_eq h)
      · rw [decimal_lt hn, decimal_ge (by omega)] at h
        have hl := congrArg List.length h
        have := List.length_pos_of_ne_nil (decimal_ne_nil (m / 10))
        simp only [List.length_append, List.length_singleton] at hl
        omega
    · by_cases hm : m < 10
      · rw [decimal_lt hm, decimal_ge (by omega)] at h
        have hl := congrArg List.length h
        have := List.length_pos_of_ne_nil (decimal_ne_nil (n / 10))
        simp only [List.length_append, List.length_singleton] at hl
        omega
      · rw [decimal_ge (by omega : 10 ≤ n), decimal_ge (by omega : 10 ≤ m)] at h
        obtain ⟨h1, h2⟩ := List.append_inj' h rfl
        have hq := ih (n / 10) (by omega) h1
        have hr := digit_inj (Nat.mod_lt _ (by decide)) (Nat.mod_lt _ (by decide))
          (List.head_eq_of_cons_eq h2)
        omega

theorem mem_decimal {n : Nat} {b : UInt8} (h : b ∈ decimal n) : 48 ≤ b.toNat ∧ b.toNat < 58 := by
  induction n using Nat.strong_induction_on with
  | _ n ih =>
    by_cases hn : n < 10
    · rw [decimal_lt hn, List.mem_singleton] at h
      rw [h, digit_toNat hn]
      omega
    · rw [decimal_ge (by omega), List.mem_append, List.mem_singleton] at h
      rcases h with h | h
      · exact ih (n / 10) (by omega) h
      · rw [h, digit_toNat (Nat.mod_lt _ (by decide))]
        omega

theorem not_mem_decimal {n : Nat} {b : UInt8} (h : b.toNat < 48 ∨ 58 ≤ b.toNat) :
    b ∉ decimal n := by
  intro hm
  have := mem_decimal hm
  omega

theorem decimal_nulFree (n : Nat) : NulFree (decimal n) := not_mem_decimal (by decide)

/-! ### Texts with a separator -/

/-- **A separator-free tail is determined by the whole text.** -/
theorem append_sep_inj {sep : UInt8} {as as' bs bs' : List UInt8} (hb : sep ∉ bs) (hb' : sep ∉ bs')
    (h : as ++ sep :: bs = as' ++ sep :: bs') : as = as' ∧ bs = bs' := by
  rcases List.append_eq_append_iff.mp h with ⟨l, h1, h2⟩ | ⟨l, h1, h2⟩
  · cases l with
    | nil => simp_all
    | cons c l =>
      rw [List.cons_append, List.cons.injEq] at h2
      exact absurd (h2.2 ▸ List.mem_append_right l List.mem_cons_self) hb
  · cases l with
    | nil => simp_all
    | cons c l =>
      rw [List.cons_append, List.cons.injEq] at h2
      exact absurd (h2.2 ▸ List.mem_append_right l List.mem_cons_self) hb'

end Eau2.Bytes
