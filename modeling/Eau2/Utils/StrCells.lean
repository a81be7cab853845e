import Eau2.Base.Heap
import Eau2.Utils.Str

/-!
# Strings and string buffers on the heap

`utils/string.h` with its arrays: a `String` and a `StrBuff` point to an array of
characters, which after `StrBuff::get` is one array for both.

* `StringObj.Shows`: the string that a `String` shows.
* `StrBuffObj.Shows`: the buffer of `Utils/Str.lean` that a `StrBuff` is; `c_spec` and
  `get_spec` follow its operations step by step.
-/

namespace Eau2

open Bytes Heap

abbrev Cells := Heap UInt8

/-- The string that starts at `a`: up to the first NUL of the array. -/
def Heap.cstrAt (h : Cells) (a : Nat) : Option Str := do
  let cells ← h.get a
  if 0 ∈ cells then some (cstr cells) else none

theorem Heap.cstrAt_eq {h : Cells} {a : Nat} {s junk : Str} (ha : h.get a = some (s ++ 0 :: junk))
    (hs : NulFree s) : h.cstrAt a = some s := by
  have hmem : (0 : UInt8) ∈ s ++ 0 :: junk := List.mem_append_right s List.mem_cons_self
  rw [cstrAt, ha, Option.bind_eq_bind, Option.bind_some, if_pos hmem, cstr,
    takeWhile_append_zero hs]

/-! ### Strings -/

structure StringObj where
  cstr : Option Nat
  size : Nat
  deriving DecidableEq, Repr

namespace StringObj

/-- `String(cstr, len)`, of a string that `cstr` points to. -/
def ofChars (mem : Junk UInt8) (cstr len : Nat) (h : Cells) : Option (StringObj × Cells) := do
  let (a, h) := h.alloc mem (len + 1)
  let chars ← h.copyFrom cstr 0 (len + 1)
  let h ← h.copyTo a 0 chars
  let h ← h.copyTo a len [0]
  some (⟨some a, len⟩, h)

def ofCStr (mem : Junk UInt8) (cstr : Nat) (h : Cells) : Option (StringObj × Cells) := do
  let s ← h.cstrAt cstr
  ofChars mem cstr s.length h

/-- `String(true, cstr, len)`, with its assertion. -/
def stealing (cstr len : Nat) (h : Cells) : Option StringObj := do
  let c ← h.copyFrom cstr len 1
  if c = [0] then some ⟨some cstr, len⟩ else none

def clone (mem : Junk UInt8) (s : StringObj) (h : Cells) : Option (StringObj × Cells) := do
  let (a, h) := h.alloc mem (s.size + 1)
  let cstr ← s.cstr
  let chars ← h.copyFrom cstr 0 (s.size + 1)
  let h ← h.copyTo a 0 chars
  some (⟨some a, s.size⟩, h)

/-- `steal`: the array, and the string that has lost it. -/
def steal (s : StringObj) : Option Nat × StringObj := (s.cstr, { s with cstr := none })

/-- `delete`; of no array there is nothing to delete. -/
def delete (s : StringObj) (h : Cells) : Option Cells :=
  match s.cstr with
  | none => some h
  | some a => h.free a

/-- The string shows `str`. -/
def Shows (h : Cells) (s : StringObj) (str : Str) : Prop :=
  s.size = str.length ∧ ∃ a junk, s.cstr = some a ∧ h.get a = some (str ++ 0 :: junk)

theorem Shows.keeps {h h' : Cells} {s : StringObj} {str : Str} {b : Nat} (hs : Shows h s str)
    (hb : s.cstr ≠ some b) (hkeeps : KeepsBut b h h') : Shows h' s str := by
  obtain ⟨hsize, a, junk, ha, hget⟩ := hs
  refine ⟨hsize, a, junk, ha, hkeeps a _ ?_ hget⟩
  rintro rfl
  exact hb ha

theorem copyFrom_front {h : Cells} {a : Nat} {s junk : Str} (ha : h.get a = some (s ++ 0 :: junk)) :
    h.copyFrom a 0 (s.length + 1) = some (s ++ [0]) := by
  have hfront : s ++ [0] <+: (s ++ 0 :: junk).drop 0 := ⟨junk, by
    rw [List.append_assoc]
    rfl⟩
  have hslice := slice_of_isPrefix hfront
  rw [List.length_append, List.length_singleton] at hslice
  rw [copyFrom, ha, Option.bind_eq_bind, Option.bind_some, hslice]

/-- **`String(cstr)` is a copy of its own.** -/
theorem ofCStr_spec (mem : Junk UInt8) {h : Cells} {a : Nat} {s junk : Str}
    (ha : h.get a = some (s ++ 0 :: junk)) (hs : NulFree s) :
    ∃ h', ofCStr mem a h = some (⟨some h.length, s.length⟩, h') ∧
      Shows h' ⟨some h.length, s.length⟩ s ∧ Keeps h h' := by
  have ha' := keeps_alloc mem (s.length + 1) h a _ ha
  have hlen : (s ++ [0]).length ≤ s.length + 1 := by
    rw [List.length_append, List.length_singleton]
  obtain ⟨h₁, junk', hcopy, hget, hjunk, hkeeps⟩ := copyTo_alloc mem hlen h
  have hend : h₁.copyTo h.length s.length [0] = some h₁ := by
    refine copyTo_same hget ?_ ⟨junk', ?_⟩
    · rw [hjunk]
      exact le_rfl
    · rw [List.append_assoc, List.drop_left]
  refine ⟨h₁, ?_, ⟨rfl, h.length, junk', rfl, ?_⟩, hkeeps⟩
  · rw [ofCStr, cstrAt_eq ha hs, Option.bind_eq_bind, Option.bind_some, ofChars]
    show ((h.alloc mem (s.length + 1)).2.copyFrom a 0 (s.length + 1)).bind _ = _
    rw [copyFrom_front ha', Option.bind_some]
    show ((h.alloc mem (s.length + 1)).2.copyTo h.length 0 (s ++ [0])).bind _ = _
    rw [hcopy, Option.bind_some]
    show (h₁.copyTo h.length s.length [0]).bind _ = _
    rw [hend]
    rfl
  · rw [hget, List.append_assoc]
    rfl

theorem clone_spec (mem : Junk UInt8) {h : Cells} {s : StringObj} {str : Str}
    (hs : Shows h s str) : ∃ h', s.clone mem h = some (⟨some h.length, s.size⟩, h') ∧
      Shows h' ⟨some h.length, s.size⟩ str ∧ Keeps h h' := by
  obtain ⟨hsize, a, junk, hcstr, hget⟩ := hs
  have hget' := keeps_alloc mem (s.size + 1) h a _ hget
  have hlen : (str ++ [0]).length ≤ s.size + 1 := by
    rw [List.length_append, List.length_singleton, hsize]
  obtain ⟨h₁, junk', hcopy, hget₁, -, hkeeps⟩ := copyTo_alloc mem hlen h
  refine ⟨h₁, ?_, ⟨hsize, h.length, junk', rfl, ?_⟩, hkeeps⟩
  · rw [clone, hcstr]
    show ((h.alloc mem (s.size + 1)).2.copyFrom a 0 (s.size + 1)).bind _ = _
    rw [hsize] at hcopy hget' ⊢
    rw [copyFrom_front hget', Option.bind_some]
    show ((h.alloc mem (str.length + 1)).2.copyTo h.length 0 (str ++ [0])).bind _ = _
    rw [hcopy]
    rfl
  · rw [hget₁, List.append_assoc]
    rfl

end StringObj

/-! ### String buffers -/

structure StrBuffObj where
  val : Nat
  capacity : Nat
  size : Nat
  deriving DecidableEq, Repr

namespace StrBuffObj

def growBy (mem : Junk UInt8) (step : Nat) (b : StrBuffObj) (h : Cells) :
    Option (StrBuffObj × Cells) :=
  if step + b.size < b.capacity then some (b, h)
  else do
    let capacity := b.capacity * 2
    let capacity := if step + b.size ≥ capacity then capacity + step else capacity
    let (val, h) := h.alloc mem capacity
    let kept ← h.copyFrom b.val 0 b.size
    let h ← h.copyTo val 0 kept
    let h ← h.free b.val
    some (⟨val, capacity, b.size⟩, h)

/-- `c(const char*, size_t)`, of characters that are not in the buffer. -/
def cBytes (mem : Junk UInt8) (str : List UInt8) (b : StrBuffObj) (h : Cells) :
    Option (StrBuffObj × Cells) := do
  let (b, h) ← growBy mem str.length b h
  let h ← h.copyTo b.val b.size str
  some ({ b with size := b.size + str.length }, h)

def c (mem : Junk UInt8) (str : Str) (b : StrBuffObj) (h : Cells) : Option (StrBuffObj × Cells) :=
  b.cBytes mem (cstr str) h

/-- `c(const char*)`, of the array at `a`: its length is taken first, its characters are
copied behind the growth. -/
def cAt (mem : Junk UInt8) (a : Nat) (b : StrBuffObj) (h : Cells) :
    Option (StrBuffObj × Cells) := do
  let str ← h.cstrAt a
  let (b, h) ← growBy mem str.length b h
  let chars ← h.copyFrom a 0 str.length
  let h ← h.copyTo b.val b.size chars
  some ({ b with size := b.size + str.length }, h)

def cNum (mem : Junk UInt8) (v : Nat) (b : StrBuffObj) (h : Cells) :
    Option (StrBuffObj × Cells) := b.c mem (decimal v) h

/-- `StrBuff(String*)` -/
def ofString (mem : Junk UInt8) (s : StringObj) (h : Cells) : Option (StrBuffObj × Cells) := do
  let (val, h) := h.alloc mem (s.size + 1)
  let a ← s.cstr
  cAt mem a ⟨val, s.size + 1, 0⟩ h

/-- `get`: the string and the buffer share the array. -/
def get (mem : Junk UInt8) (b : StrBuffObj) (h : Cells) :
    Option (StringObj × StrBuffObj × Cells) := do
  let (b, h) ← growBy mem 1 b h
  let h ← h.copyTo b.val b.size [0]
  let res ← StringObj.stealing b.val b.size h
  some (res, { b with size := 0 }, h)

/-- The buffer `sb` of `Utils/Str.lean`, in its array. -/
def Shows (h : Cells) (b : StrBuffObj) (sb : StrBuff) : Prop :=
  b.capacity = sb.capacity ∧ b.size = sb.size ∧
    ∃ cells, h.get b.val = some cells ∧ cells.length = sb.capacity ∧ sb.val <+: cells

/-- The array is the one there was, or a new one. -/
structure Moved (h : Cells) (b : StrBuffObj) (h' : Cells) (b' : StrBuffObj) : Prop where
  keeps : KeepsBut b.val h h'
  val : b'.val = b.val ∨ h.get b'.val = none

theorem Moved.refl (h : Cells) (b : StrBuffObj) : Moved h b h b :=
  ⟨KeepsBut.refl _ h, Or.inl rfl⟩

theorem Moved.ne {h h' : Cells} {b b' : StrBuffObj} (hm : Moved h b h' b') {a : Nat} {cells : Str}
    (ha : h.get a = some cells) (hne : a ≠ b.val) : a ≠ b'.val := by
  intro heq
  rcases hm.val with hval | hval
  · exact hne (heq.trans hval)
  · rw [← heq, ha] at hval
    cases hval

theorem Moved.copy {h h' : Cells} {b b' : StrBuffObj} (hm : Moved h b h' b')
    (o : Option (List UInt8)) (size : Nat) : Moved h b (h'.set b'.val o) { b' with size } :=
  ⟨hm.keeps.trans hm.val (keepsBut_set _ _ _), hm.val⟩

theorem growBy_fits {mem : Junk UInt8} {step : Nat} {b : StrBuffObj}
    (hroom : step + b.size < b.capacity) (h : Cells) : b.growBy mem step h = some (b, h) :=
  if_pos hroom

/-- **Growing keeps the text, in an array that nobody else has.** -/
theorem growBy_spec (mem : Junk UInt8) {h : Cells} {b : StrBuffObj} {sb : StrBuff}
    (hs : Shows h b sb) (hfits : sb.Fits) (step : Nat) :
    ∃ b' h', b.growBy mem step h = some (b', h') ∧ Shows h' b' (sb.growBy step) ∧
      Moved h b h' b' := by
  obtain ⟨hcap, hsize, cells, hget, hlen, htext⟩ := hs
  rw [growBy, StrBuff.growBy, hcap, hsize]
  by_cases hroom : step + sb.size < sb.capacity
  · rw [if_pos hroom, if_pos hroom]
    exact ⟨b, h, rfl, ⟨hcap, hsize, cells, hget, hlen, htext⟩, Moved.refl h b⟩
  · rw [if_neg hroom, if_neg hroom]
    obtain ⟨capacity, hcapacity⟩ : ∃ c, (if step + sb.size ≥ sb.capacity * 2 then
        sb.capacity * 2 + step else sb.capacity * 2) = c := ⟨_, rfl⟩
    have hle : sb.val.length ≤ capacity := by
      show sb.size ≤ capacity
      rw [← hcapacity]
      unfold StrBuff.Fits at hfits
      split <;> omega
    obtain ⟨h₁, junk, hcopy, hget₁, hjunk, hkeeps⟩ := copyTo_alloc mem hle h
    have hkept : (h.alloc mem capacity).2.copyFrom b.val 0 sb.size = some sb.val := by
      rw [copyFrom, keeps_alloc mem capacity h _ _ hget, Option.bind_eq_bind, Option.bind_some]
      exact slice_of_isPrefix htext
    have hne : b.val ≠ h.length := by
      intro heq
      rw [heq, get_length] at hget
      cases hget
    have hfree : h₁.free b.val = some (h₁.set b.val none) := by
      rw [free, hkeeps _ _ hget]
      rfl
    refine ⟨⟨h.length, capacity, sb.size⟩, h₁.set b.val none, ?_,
      ⟨?_, rfl, sb.val ++ junk, ?_, ?_, ?_⟩, ⟨?_, Or.inr (get_length h)⟩⟩
    · simp only [hcapacity]
      show ((h.alloc mem capacity).2.copyFrom b.val 0 sb.size).bind _ = _
      rw [hkept, Option.bind_some]
      show ((h.alloc mem capacity).2.copyTo h.length 0 sb.val).bind _ = _
      rw [hcopy, Option.bind_some]
      show (h₁.free b.val).bind _ = _
      rw [hfree]
      rfl
    · exact hcapacity.symm
    · rw [get_set_ne hne, hget₁]
    · exact hjunk.trans hcapacity.symm
    · exact List.prefix_append _ _
    · intro a cells' hane ha
      rw [get_set_ne hane.symm]
      exact hkeeps a cells' ha

theorem Shows.copyTo {h : Cells} {b : StrBuffObj} {sb : StrBuff} (hs : Shows h b sb)
    {str : List UInt8} (hroom : sb.size + str.length ≤ sb.capacity) :
    ∃ cells, h.copyTo b.val b.size str = some (h.set b.val (some cells)) ∧
      Shows (h.set b.val (some cells)) { b with size := b.size + str.length }
        { sb with val := sb.val ++ str } := by
  obtain ⟨hcap, hsize, cells, hget, hlen, htext⟩ := hs
  have hle : b.size + str.length ≤ cells.length := by
    rw [hlen, hsize]
    exact hroom
  obtain ⟨cells', hblit⟩ := exists_blit hle
  refine ⟨cells', copyTo_eq hget hblit, hcap, ?_, cells', get_set hget _, ?_, ?_⟩
  · show b.size + str.length = (sb.val ++ str).length
    rw [hsize, List.length_append]
    rfl
  · exact (length_blit hblit).trans hlen
  · have htake := take_blit hblit
    have hfront : cells.take b.size = sb.val := by
      rw [hsize]
      exact (List.prefix_iff_eq_take.mp htext).symm
    rw [hfront] at htake
    rw [← htake]
    exact List.take_prefix _ _

/-- **`c` is the `c` of the buffer.** -/
theorem cBytes_spec (mem : Junk UInt8) {h : Cells} {b : StrBuffObj} {sb : StrBuff}
    (hs : Shows h b sb) (hfits : sb.Fits) (str : List UInt8) :
    ∃ b' h' sb', b.cBytes mem str h = some (b', h') ∧ sb.cBytes str = some sb' ∧
      Shows h' b' sb' ∧ Moved h b h' b' := by
  obtain ⟨b₁, h₁, hgrow, hs₁, hm₁⟩ := growBy_spec mem hs hfits str.length
  obtain ⟨hval, hroom⟩ := StrBuff.growBy_spec hfits str.length
  have hsize : (StrBuff.growBy str.length sb).size = sb.size := by
    rw [StrBuff.size, hval]
    rfl
  have hroom' : (StrBuff.growBy str.length sb).size + str.length ≤
      (StrBuff.growBy str.length sb).capacity := by
    rw [hsize]
    omega
  obtain ⟨cells, hcopy, hs'⟩ := hs₁.copyTo hroom'
  refine ⟨_, _, _, ?_, ?_, hs', hm₁.copy _ _⟩
  · rw [cBytes, hgrow]
    show (h₁.copyTo b₁.val b₁.size str).bind _ = _
    rw [hcopy]
    rfl
  · rw [StrBuff.cBytes, if_pos hroom']

theorem cAt_same (mem : Junk UInt8) {h : Cells} {b : StrBuffObj} {cells : Str}
    (hcells : h.get b.val = some cells) (hcap : cells.length = b.capacity) (hsize : b.size = 0)
    {a : Nat} {str junk : Str} (ha : h.get a = some (str ++ 0 :: junk)) (hstr : NulFree str)
    (hroom : str.length < b.capacity) (hwritten : str <+: cells) :
    b.cAt mem a h = some ({ b with size := str.length }, h) := by
  have hfrom : h.copyFrom a 0 str.length = some str := by
    rw [copyFrom, ha, Option.bind_eq_bind, Option.bind_some]
    exact slice_of_isPrefix (List.prefix_append _ _)
  rw [cAt, cstrAt_eq ha hstr, Option.bind_eq_bind, Option.bind_some, growBy_fits (by omega)]
  show (h.copyFrom a 0 str.length).bind _ = _
  rw [hfrom, Option.bind_some]
  show (h.copyTo b.val b.size str).bind _ = _
  rw [hsize, copyTo_same hcells (by omega) hwritten, Option.bind_some, Nat.zero_add]

theorem cAt_spec (mem : Junk UInt8) {h : Cells} {b : StrBuffObj} {sb : StrBuff}
    (hs : Shows h b sb) (hfits : sb.Fits) {a : Nat} {str junk : Str}
    (ha : h.get a = some (str ++ 0 :: junk)) (hstr : NulFree str) (hne : a ≠ b.val) :
    ∃ b' h' sb', b.cAt mem a h = some (b', h') ∧ sb.c str = some sb' ∧
      Shows h' b' sb' ∧ Moved h b h' b' := by
  obtain ⟨b₁, h₁, hgrow, hs₁, hm₁⟩ := growBy_spec mem hs hfits str.length
  obtain ⟨b', h', sb', hc, hc', hs', hm'⟩ := cBytes_spec mem hs hfits str
  refine ⟨b', h', sb', ?_, ?_, hs', hm'⟩
  · have hfrom : h₁.copyFrom a 0 str.length = some str := by
      rw [copyFrom, hm₁.keeps a _ hne ha, Option.bind_eq_bind, Option.bind_some]
      exact slice_of_isPrefix (List.prefix_append _ _)
    rw [cBytes, hgrow] at hc
    rw [cAt, cstrAt_eq ha hstr, Option.bind_eq_bind, Option.bind_some, hgrow]
    show (h₁.copyFrom a 0 str.length).bind _ = _
    rw [hfrom]
    exact hc
  · rw [StrBuff.c, cstr_of_nulFree hstr]
    exact hc'

theorem ofString_spec (mem : Junk UInt8) {h : Cells} {s : StringObj} {str : Str}
    (hs : s.Shows h str) (hstr : NulFree str) :
    ∃ b h' sb, ofString mem s h = some (b, h') ∧
      StrBuff.c str ⟨[], str.length + 1⟩ = some sb ∧ Shows h' b sb ∧
      h.get b.val = none ∧ Keeps h h' := by
  obtain ⟨hsize, a, junk, hcstr, hget⟩ := hs
  obtain ⟨h₁, hh₁⟩ : ∃ h₁, (h.alloc mem (str.length + 1)).2 = h₁ := ⟨_, rfl⟩
  have hkeeps : Keeps h h₁ := hh₁ ▸ keeps_alloc mem (str.length + 1) h
  have hnew : h₁.get h.length = some (mem h.length (str.length + 1)).toList :=
    hh₁ ▸ get_alloc mem (str.length + 1) h
  have hs₁ : Shows h₁ ⟨h.length, str.length + 1, 0⟩ ⟨[], str.length + 1⟩ :=
    ⟨rfl, rfl, _, hnew, Vector.length_toList, List.nil_prefix⟩
  have hne : a ≠ h.length := by
    rintro rfl
    rw [get_length] at hget
    cases hget
  obtain ⟨b, h', sb, hc, hc', hs', hm⟩ :=
    cAt_spec mem hs₁ (Nat.succ_pos _) (hkeeps a _ hget) hstr hne
  refine ⟨b, h', sb, ?_, hc', hs', ?_, ?_⟩
  · rw [ofString, hsize, hcstr]
    show StrBuffObj.cAt mem a ⟨h.length, str.length + 1, 0⟩ (h.alloc mem (str.length + 1)).2 = _
    rw [hh₁]
    exact hc
  · rcases hm.val with hval | hval
    · rw [hval]
      exact get_length h
    · cases hb : h.get b.val with
      | none => rfl
      | some cells =>
        rw [hkeeps _ _ hb] at hval
        cases hval
  · intro a' cells ha'
    refine hm.keeps a' cells ?_ (hkeeps a' cells ha')
    rintro rfl
    rw [get_length] at ha'
    cases ha'

/-- **`get` terminates the text, and hands out the array.** -/
theorem get_spec (mem : Junk UInt8) {h : Cells} {b : StrBuffObj} {sb : StrBuff}
    (hs : Shows h b sb) (hfits : sb.Fits) :
    ∃ b' h' sb' junk, b.get mem h = some (⟨some b'.val, sb.size⟩, b', h') ∧
      sb.get = some (sb.val, sb') ∧ Shows h' b' sb' ∧ Moved h b h' b' ∧
      h'.get b'.val = some (sb.val ++ 0 :: junk) ∧
      (sb.val ++ 0 :: junk).length = b'.capacity ∧ b'.size = 0 := by
  obtain ⟨b₁, h₁, hgrow, hs₁, hm₁⟩ := growBy_spec mem hs hfits 1
  obtain ⟨hval, hroom⟩ := StrBuff.growBy_spec hfits 1
  have hsize : (StrBuff.growBy 1 sb).size = sb.size := by
    rw [StrBuff.size, hval]
    rfl
  have hroom' : (StrBuff.growBy 1 sb).size + [(0 : UInt8)].length ≤
      (StrBuff.growBy 1 sb).capacity := by
    rw [hsize, List.length_singleton]
    omega
  obtain ⟨cells, hcopy, hs₂⟩ := hs₁.copyTo hroom'
  obtain ⟨hcap₂, -, cells', hget₂, hlen₂, htext₂⟩ := hs₂
  obtain ⟨junk, hjunk⟩ := htext₂
  have hcells : cells' = sb.val ++ 0 :: junk := by
    rw [← hjunk]
    show (StrBuff.growBy 1 sb).val ++ [0] ++ junk = _
    rw [hval, List.append_assoc]
    rfl
  have hb₁ : b₁.size = sb.size := hs₁.2.1.trans hsize
  subst hcells
  refine ⟨{ b₁ with size := 0 }, h₁.set b₁.val (some cells), { StrBuff.growBy 1 sb with val := [] },
    junk, ?_, ?_, ⟨hcap₂, rfl, _, hget₂, hlen₂, List.nil_prefix⟩, hm₁.copy _ _, hget₂,
    hlen₂.trans hcap₂.symm, rfl⟩
  · have hstealing : StringObj.stealing b₁.val b₁.size (h₁.set b₁.val (some cells)) =
        some ⟨some b₁.val, sb.size⟩ := by
      have hend : Heap.copyFrom b₁.val b₁.size 1 (h₁.set b₁.val (some cells)) = some [0] := by
        rw [copyFrom, show Heap.get (h₁.set b₁.val (some cells)) b₁.val = _ from hget₂,
          Option.bind_eq_bind, Option.bind_some, hb₁]
        have hzero : [(0 : UInt8)] <+: (sb.val ++ 0 :: junk).drop sb.size := by
          refine ⟨junk, ?_⟩
          rw [StrBuff.size, List.drop_left]
          rfl
        exact slice_of_isPrefix hzero
      rw [StringObj.stealing, hend, Option.bind_eq_bind, Option.bind_some, if_pos rfl, hb₁]
    rw [get, hgrow]
    show (h₁.copyTo b₁.val b₁.size [0]).bind _ = _
    rw [hcopy, Option.bind_some]
    show (StringObj.stealing b₁.val b₁.size (h₁.set b₁.val (some cells))).bind _ = _
    rw [hstealing]
    rfl
  · rw [StrBuff.get, if_pos (by rw [hsize]; omega), hval]

end StrBuffObj

end Eau2
