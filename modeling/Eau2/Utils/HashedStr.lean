import Eau2.Base.Memory
import Eau2.Utils.Str

/-!
# Strings and the hashes they keep

`utils/string.h` on top of `utils/object.h`: a `String` with its whole array, NULs
inside and all, and the `hash_` that its `Object` computes once, that a copy takes over
and that `deserialize` leaves alone.

* `Good`: no NUL before the last character, and `hash_` is that of the text.
* `equals_good`, `hash_good`: **good strings are compared and hashed by their texts**.
* `exists_equal`: **every other text has an equal one with another hash**.
-/

namespace Eau2

open Bytes Serializer

structure HashedStr where
  /-- The whole array at `cstr_`. -/
  cells : List UInt8
  size : Nat
  /-- `hash_`, 0 as long as there is none. -/
  cached : SizeT
  deriving DecidableEq, Repr

/-- The loop of `hash_me`. -/
def hashChars (cs : Str) : SizeT :=
  cs.foldl (fun hash c => CStr.charToSizeT c + (hash <<< 6) + (hash <<< 16) - hash) 0

def strncmp : List UInt8 → List UInt8 → Nat → Option Bool
  | _, _, 0 => some true
  | a :: as, b :: bs, n + 1 =>
    if a ≠ b then some false else if a = 0 then some true else strncmp as bs n
  | _, _, _ => none

namespace HashedStr

/-- `String(cstr, len)` -/
def ofChars (cstr : List UInt8) (len : Nat) : Option HashedStr := do
  let cells ← slice cstr 0 (len + 1)
  let cells ← blit cells len [0]
  some ⟨cells, len, 0⟩

def ofCStr (cstr : List UInt8) : Option HashedStr :=
  if 0 ∈ cstr then ofChars cstr (Bytes.cstr cstr).length else none

/-- `String(true, cstr, len)`, with its assertion. -/
def stealing (cstr : List UInt8) (len : Nat) : Option HashedStr := do
  let c ← cstr[len]?
  if c = 0 then some ⟨cstr, len, 0⟩ else none

def copy (src : HashedStr) : Option HashedStr := do
  let cells ← slice src.cells 0 (src.size + 1)
  some ⟨cells, src.size, src.cached⟩

def clone (s : HashedStr) : Option HashedStr := copy s

def serialize (s : HashedStr) : SerM Unit := do
  writeSizeT (UInt64.ofNat s.size)
  writeCStr s.cells

/-- `deserialize`; `readString` allocates what it reads and a terminator. -/
def deserialize (s : HashedStr) : SerM HashedStr := do
  let size ← readSizeT
  let cstr ← readString
  pure ⟨cstr ++ [0], size.toNat, s.cached⟩

def equals (s t : HashedStr) : Option Bool :=
  if s.size ≠ t.size then some false else strncmp s.cells t.cells s.size

def hashMe (s : HashedStr) : Option SizeT :=
  (List.range s.size).foldlM (fun hash i => do
    let c ← s.cells[i]?
    some (CStr.charToSizeT c + (hash <<< 6) + (hash <<< 16) - hash)) 0

def hash (s : HashedStr) : Option (SizeT × HashedStr) :=
  if s.cached ≠ 0 then some (s.cached, s)
  else do
    let hash ← s.hashMe
    some (hash, { s with cached := hash })

def text (s : HashedStr) : Str := s.cells.take s.size

/-! ### Building and sending -/

theorem ofChars_eq (text : Str) (next : UInt8) :
    ofChars (text ++ [next]) text.length = some ⟨text ++ [0], text.length, 0⟩ := by
  have hlen : text.length + 1 ≤ (text ++ [next]).length - 0 := by
    rw [List.length_append, List.length_singleton, Nat.sub_zero]
  have hall : ((text ++ [next]).drop 0).take (text.length + 1) = text ++ [next] := by
    rw [List.drop_zero]
    exact List.take_of_length_le (by rw [List.length_append, List.length_singleton])
  rw [ofChars, slice_of_le hlen, hall, Option.bind_eq_bind, Option.bind_some,
    blit_of_le (by rw [List.length_append, List.length_singleton, List.length_singleton]),
    List.take_left, List.drop_of_length_le (by
      rw [List.length_append, List.length_singleton, List.length_singleton])]
  rfl

theorem ofCStr_eq (s : CStr) : ofCStr (s.val ++ [0]) = some ⟨s.val ++ [0], s.val.length, 0⟩ := by
  have hcstr : Bytes.cstr (s.val ++ [0]) = s.val := takeWhile_append_zero s.2 []
  rw [ofCStr, if_pos (List.mem_append_right _ List.mem_cons_self), hcstr, ofChars_eq]

theorem stealing_eq (text junk : List UInt8) :
    stealing (text ++ 0 :: junk) text.length = some ⟨text ++ 0 :: junk, text.length, 0⟩ := by
  rw [stealing, List.getElem?_append_right le_rfl, Nat.sub_self]
  rfl

/-- The bytes of a size and a text behind it. -/
def wire (size : SizeT) (text : CStr) : List UInt8 := le 8 size.toNat ++ (text.val ++ [0])

/-- **A string is sent as its size and its text up to the first NUL.** -/
theorem writes_serialize (s : HashedStr) : Writes s.serialize
    (wire (UInt64.ofNat s.size) ⟨Bytes.cstr s.cells, cstr_nulFree s.cells⟩) :=
  (writes_writeLE 8 _).bind (writes_writeCStr s.cells)

theorem reads_deserialize (s : HashedStr) (size : SizeT) (text : CStr) :
    Reads s.deserialize (wire size text) ⟨text.val ++ [0], size.toNat, s.cached⟩ :=
  (reads_readSizeT size).bind ((reads_readString text.2).map (Reads.pure _))

/-! ### Comparing -/

theorem cstr_cons (c : UInt8) (cs : List UInt8) :
    cstr (c :: cs) = if c = 0 then [] else c :: cstr cs := by
  by_cases hc : c = 0
  · subst hc
    rfl
  · rw [if_neg hc, cstr,
      List.takeWhile_cons_of_pos (p := fun b : UInt8 => decide (b ≠ 0)) (decide_eq_true hc)]
    rfl

theorem strncmp_eq {s t : List UInt8} {n : Nat} (hs : n ≤ s.length) (ht : n ≤ t.length) :
    strncmp s t n = some (decide (cstr (s.take n) = cstr (t.take n))) := by
  induction n generalizing s t with
  | zero => simp [strncmp]
  | succ n ih =>
    cases s with
    | nil => exact absurd hs (Nat.not_succ_le_zero n)
    | cons a as =>
      cases t with
      | nil => exact absurd ht (Nat.not_succ_le_zero n)
      | cons b bs =>
        rw [strncmp, List.take_succ_cons, List.take_succ_cons, cstr_cons, cstr_cons]
        by_cases hab : a = b
        · subst hab
          rw [if_neg (not_not.mpr rfl)]
          by_cases ha : a = 0
          · rw [if_pos ha, if_pos ha, if_pos ha, decide_eq_true rfl]
          · rw [if_neg ha, if_neg ha, if_neg ha,
              ih (Nat.succ_le_succ_iff.mp hs) (Nat.succ_le_succ_iff.mp ht)]
            simp only [List.cons.injEq, true_and]
        · rw [if_pos hab]
          refine congrArg some (decide_eq_false fun heq => hab ?_).symm
          by_cases ha : a = 0
          · by_cases hb : b = 0
            · rw [ha, hb]
            · rw [if_pos ha, if_neg hb] at heq
              cases heq
          · by_cases hb : b = 0
            · rw [if_neg ha, if_pos hb] at heq
              cases heq
            · rw [if_neg ha, if_neg hb] at heq
              exact (List.cons.inj heq).1

/-- No character but the last is a NUL. -/
def NulLast (text : Str) : Prop := NulFree text.dropLast

instance (text : Str) : Decidable (NulLast text) := inferInstanceAs (Decidable (NulFree _))

theorem cstr_concat {cs : Str} (h : NulFree cs) (c : UInt8) :
    cstr (cs ++ [c]) = cs ++ if c = 0 then [] else [c] := by
  by_cases hc : c = 0
  · subst hc
    rw [if_pos rfl, List.append_nil]
    exact takeWhile_append_zero h []
  · rw [if_neg hc]
    exact cstr_of_nulFree (nulFree_append h fun hz => hc (List.mem_singleton.mp hz).symm)

theorem NulLast.cstr_inj {s t : Str} (hs : NulLast s) (ht : NulLast t) (hlen : s.length = t.length)
    (h : cstr s = cstr t) : s = t := by
  rcases List.eq_nil_or_concat s with rfl | ⟨s, c, rfl⟩
  · exact (List.length_eq_zero_iff.mp hlen.symm).symm
  rcases List.eq_nil_or_concat t with rfl | ⟨t, d, rfl⟩
  · exact List.length_eq_zero_iff.mp hlen
  rw [List.concat_eq_append] at hs h hlen ⊢
  rw [List.concat_eq_append] at ht h hlen ⊢
  rw [NulLast, List.dropLast_concat] at hs ht
  rw [List.length_append, List.length_append] at hlen
  rw [cstr_concat hs, cstr_concat ht] at h
  obtain ⟨rfl, hlast⟩ := List.append_inj h (Nat.add_right_cancel hlen)
  by_cases hc : c = 0
  · by_cases hd : d = 0
    · rw [hc, hd]
    · rw [if_pos hc, if_neg hd] at hlast
      cases hlast
  · by_cases hd : d = 0
    · rw [if_neg hc, if_pos hd] at hlast
      cases hlast
    · rw [if_neg hc, if_neg hd] at hlast
      rw [hlast]

/-- A string as it should be: its array ends behind `size_`, its text has no NUL before the
last character, and its hash, once there is one, is that of the text. -/
structure Good (s : HashedStr) : Prop where
  fits : s.size < s.cells.length
  nulLast : NulLast s.text
  cached : s.cached = 0 ∨ s.cached = hashChars s.text

theorem length_text {s : HashedStr} (h : s.size < s.cells.length) : s.text.length = s.size :=
  List.length_take_of_le h.le

/-- **Good strings are equal when their texts are.** -/
theorem equals_good {s t : HashedStr} (hs : Good s) (ht : Good t) :
    s.equals t = some (decide (s.text = t.text)) := by
  have hslen := length_text hs.fits
  have htlen := length_text ht.fits
  rw [equals]
  by_cases hsize : s.size = t.size
  · have htext : t.cells.take s.size = t.text := by rw [hsize, text]
    rw [if_neg (not_not.mpr hsize), strncmp_eq hs.fits.le (hsize ▸ ht.fits.le), htext]
    refine congrArg some (decide_eq_decide.mpr ⟨fun h => ?_, congrArg cstr⟩)
    exact hs.nulLast.cstr_inj ht.nulLast (by rw [hslen, htlen, hsize]) h
  · rw [if_pos hsize]
    refine congrArg some (decide_eq_false fun h => hsize ?_).symm
    rw [← hslen, ← htlen, h]

theorem hashMe_eq {s : HashedStr} (h : s.size ≤ s.cells.length) :
    s.hashMe = some (hashChars s.text) := by
  have hall : ∀ n ≤ s.size, (List.range n).foldlM (fun hash i => do
      let c ← s.cells[i]?
      some (CStr.charToSizeT c + (hash <<< 6) + (hash <<< 16) - hash)) 0 =
        some (hashChars (s.cells.take n)) := by
    intro n
    induction n with
    | zero => intro _; rfl
    | succ n ih =>
      intro hn
      have hlt : n < s.cells.length := by omega
      rw [List.range_succ, List.foldlM_append, ih (by omega), ← List.take_append_getElem hlt,
        hashChars, hashChars, List.foldl_append]
      show (s.cells[n]?.bind _).bind _ = _
      rw [List.getElem?_eq_getElem hlt]
      rfl
  exact hall s.size le_rfl

/-- **Good strings hash to the hash of their text.** -/
theorem hash_good {s : HashedStr} (h : Good s) :
    ∃ s', s.hash = some (hashChars s.text, s') ∧ Good s' ∧ s'.text = s.text := by
  rw [hash]
  by_cases hc : s.cached = 0
  · rw [if_neg (not_not.mpr hc), hashMe_eq h.fits.le]
    exact ⟨{ s with cached := hashChars s.text }, rfl, ⟨h.fits, h.nulLast, Or.inr rfl⟩, rfl⟩
  · rw [if_pos hc]
    have htext := h.cached.resolve_left hc
    exact ⟨s, by rw [htext], h, rfl⟩

/-! ### Which strings are good -/

theorem text_append {cs rest : List UInt8} {n : Nat} {h : SizeT} (hn : n = cs.length) :
    text ⟨cs ++ rest, n, h⟩ = cs := by
  rw [text, hn, List.take_left]

theorem good_built {cs : Str} (rest : List UInt8) (h : NulLast cs) :
    Good ⟨cs ++ 0 :: rest, cs.length, 0⟩ where
  fits := by
    show cs.length < (cs ++ 0 :: rest).length
    rw [List.length_append, List.length_cons]
    omega
  nulLast := by rwa [text_append rfl]
  cached := Or.inl rfl

theorem NulFree.nulLast {cs : Str} (h : NulFree cs) : NulLast cs := fun hz =>
  h (List.mem_of_mem_dropLast hz)

theorem clone_good {s : HashedStr} (h : Good s) :
    ∃ s', s.clone = some s' ∧ Good s' ∧ s'.text = s.text := by
  have hfits : s.size + 1 ≤ s.cells.length := h.fits
  have htext : text ⟨s.cells.take (s.size + 1), s.size, s.cached⟩ = s.text := by
    rw [text, text, List.take_take, Nat.min_eq_left (Nat.le_succ _)]
  refine ⟨⟨s.cells.take (s.size + 1), s.size, s.cached⟩, ?_, ⟨?_, ?_, ?_⟩, htext⟩
  · rw [clone, copy, slice_of_le (by rwa [Nat.sub_zero]), List.drop_zero]
    rfl
  · show s.size < (s.cells.take (s.size + 1)).length
    rw [List.length_take_of_le hfits]
    exact Nat.lt_succ_self _
  · rw [htext]
    exact h.nulLast
  · rw [htext]
    exact h.cached

theorem good_deserialized {text : CStr} {size : SizeT} {cached : SizeT}
    (hsize : size.toNat ≤ text.val.length)
    (hc : cached = 0 ∨ cached = hashChars (text.val.take size.toNat)) :
    Good ⟨text.val ++ [0], size.toNat, cached⟩ := by
  have htext : HashedStr.text ⟨text.val ++ [0], size.toNat, cached⟩ = text.val.take size.toNat :=
    List.take_append_of_le_length hsize
  refine ⟨?_, ?_, ?_⟩
  · show size.toNat < (text.val ++ [0]).length
    rw [List.length_append, List.length_singleton]
    omega
  · rw [htext]
    exact NulFree.nulLast fun hz => text.2 (List.mem_of_mem_take hz)
  · rwa [htext]

/-! ### Which are not -/

theorem equals_of_cstr_eq {s t : HashedStr} (hsize : s.size = t.size)
    (hs : s.size ≤ s.cells.length) (ht : t.size ≤ t.cells.length)
    (h : Bytes.cstr s.text = Bytes.cstr t.text) : s.equals t = some true := by
  have htext : t.cells.take s.size = t.text := by rw [hsize, text]
  rw [equals, if_neg (not_not.mpr hsize), strncmp_eq hs (hsize ▸ ht), htext]
  exact congrArg some (decide_eq_true h)

theorem hash_built {s : HashedStr} (hc : s.cached = 0) (h : s.size ≤ s.cells.length) :
    s.hash.map Prod.fst = some (hashChars s.text) := by
  rw [hash, if_neg (not_not.mpr hc), hashMe_eq h]
  rfl

theorem hash_cached {s : HashedStr} (hc : s.cached ≠ 0) : s.hash.map Prod.fst = some s.cached := by
  rw [hash, if_pos hc]
  rfl

theorem cstr_append_of_mem {cs : Str} (h : 0 ∈ cs) (rest : Str) : cstr (cs ++ rest) = cstr cs := by
  induction cs with
  | nil => cases h
  | cons c cs ih =>
    rw [List.cons_append, cstr_cons, cstr_cons]
    by_cases hc : c = 0
    · rw [if_pos hc, if_pos hc]
    · rw [if_neg hc, if_neg hc, ih ((List.mem_cons.mp h).resolve_left (Ne.symm hc))]

theorem charToSizeT_succ (c : UInt8) : CStr.charToSizeT (c + 1) ≠ CStr.charToSizeT c := by
  have hall : ∀ n : Fin 256,
      CStr.charToSizeT (UInt8.ofFin n + 1) ≠ CStr.charToSizeT (UInt8.ofFin n) := by
    decide +kernel
  exact hall c.toFin

/-- **Behind a NUL the last character makes no difference to `equals`, but to the hash.** -/
theorem exists_equal {cs : Str} (h : ¬ NulLast cs) : ∃ cs', cs'.length = cs.length ∧
    cstr cs' = cstr cs ∧ hashChars cs' ≠ hashChars cs := by
  rcases List.eq_nil_or_concat cs with rfl | ⟨cs, c, rfl⟩
  · exact absurd (by decide) h
  rw [List.concat_eq_append] at h ⊢
  rw [NulLast, List.dropLast_concat] at h
  have hz : 0 ∈ cs := not_not.mp h
  refine ⟨cs ++ [c + 1], ?_, ?_, ?_⟩
  · rw [List.length_append, List.length_append]
    rfl
  · rw [cstr_append_of_mem hz, cstr_append_of_mem hz]
  · rw [hashChars, hashChars, List.foldl_append, List.foldl_append]
    intro heq
    exact charToSizeT_succ c (add_right_cancel (add_right_cancel (sub_left_injective heq)))

end HashedStr

end Eau2
