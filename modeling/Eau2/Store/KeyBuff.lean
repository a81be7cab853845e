import Eau2.Store.Key

/-!
# Key buffers

`store/keybuff.h`.  The `String` that `get` takes from the buffer shares its array, and the
text of the original key is written over it once more before it is copied: it starts with
that text, so nothing changes.

* `append_get`: a key that is built has the original text and then the pieces.
-/

namespace Eau2

open Bytes

structure KeyBuff where
  orig : Key
  buf : StrBuff

namespace KeyBuff

/-- `KeyBuff(orig)`: `StrBuff(String*)` takes room for the text and appends it. -/
def new (orig : Key) : Option KeyBuff := do
  let buf ← StrBuff.c orig.kStr.val ⟨[], orig.kStr.val.length + 1⟩
  pure ⟨orig, buf⟩

def cNum (v : Nat) (b : KeyBuff) : Option KeyBuff := do
  let buf ← b.buf.cNum v
  pure { b with buf := buf }

def get (b : KeyBuff) : Option (Key × KeyBuff) := do
  let (s, buf) ← b.buf.get
  let buf ← buf.c b.orig.kStr.val
  if h : NulFree (cstr s) then pure (⟨⟨cstr s, h⟩, b.orig.homeNode⟩, { b with buf := buf })
  else failure

/-- The buffer of `orig`, with nothing appended. -/
structure Ready (b : KeyBuff) (orig : Key) : Prop where
  orig_eq : b.orig = orig
  fits : b.buf.Fits
  val_eq : b.buf.val = orig.kStr.val

theorem ready_new (orig : Key) : ∃ b, new orig = some b ∧ b.Ready orig := by
  have hfits : StrBuff.Fits ⟨[], orig.kStr.val.length + 1⟩ := Nat.succ_pos _
  obtain ⟨buf, hc, hf, hv⟩ := StrBuff.c_spec hfits orig.kStr.val
  refine ⟨⟨orig, buf⟩, ?_, rfl, hf, ?_⟩
  · rw [new, hc]
    rfl
  · rw [hv, cstr_of_nulFree orig.kStr.2]
    rfl

def numbered (orig : Key) (v : Nat) : Key :=
  ⟨Key.glue [orig.kStr.val, decimal v], orig.homeNode⟩

theorem numbered_kStr (orig : Key) (v : Nat) :
    (numbered orig v).kStr.val = orig.kStr.val ++ decimal v := by
  show List.flatMap _ _ = _
  simp only [List.flatMap_cons, List.flatMap_nil, cstr_of_nulFree (decimal_nulFree _),
    cstr_of_nulFree orig.kStr.2, List.append_nil]

/-- **A key that is built has the original text and then the number**, and the buffer
starts over. -/
theorem Ready.append_get {b : KeyBuff} {orig : Key} (h : b.Ready orig) (v : Nat) :
    ∃ b', (b.cNum v).bind get = some (numbered orig v, b') ∧ b'.Ready orig := by
  obtain ⟨buf₁, h₁, hf₁, hv₁⟩ := StrBuff.cNum_spec h.fits v
  obtain ⟨buf₂, h₂, hf₂, hv₂⟩ := StrBuff.get_spec hf₁
  obtain ⟨buf₃, h₃, hf₃, hv₃⟩ := StrBuff.c_spec hf₂ orig.kStr.val
  rw [h.val_eq, ← numbered_kStr] at hv₁
  refine ⟨⟨orig, buf₃⟩, ?_, rfl, hf₃, ?_⟩
  · obtain ⟨orig', buf⟩ := b
    have horig : orig' = orig := h.orig_eq
    subst horig
    have hget : get ⟨orig', buf₁⟩ = some (numbered orig' v, ⟨orig', buf₃⟩) := by
      simp only [get, h₂, h₃, Option.bind_eq_bind, Option.bind_some, hv₁,
        cstr_of_nulFree (numbered orig' v).kStr.2]
      exact dif_pos (numbered orig' v).kStr.2
    rw [cNum, h₁]
    exact hget
  · rw [hv₃, hv₂, cstr_of_nulFree orig.kStr.2]
    rfl

end KeyBuff

end Eau2
