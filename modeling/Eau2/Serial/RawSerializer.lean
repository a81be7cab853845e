import Eau2.Base.Memory
import Eau2.Serial.Serializer

/-!
# The serializer in memory

`serial/serial.h` with its array: `buffer_` is all of what is allocated, `grow_` copies it
into a new array, whose other bytes are whatever memory held, and an access outside the
array is `none`.

* `writes_add_`, `reads_readCharPtr`, `reads_readString`: the rules of the tape hold here
  as they do of `Serializer`, which is this one with the bytes behind
  `numBytesWritten_` forgotten (`toSerializer_add_`).
* `round_trip`: **any items written are the buffer, and are read back**.
-/

namespace Eau2

open Bytes Tape

/-- The members of a `Serializer`. -/
structure RawSerializer where
  buffer : List UInt8
  numBytesWritten : Nat
  numBytesRead : Nat
  capacity : Nat

/-- What `new char[n]` finds in memory. -/
abbrev Uninit := (n : Nat) → Vector UInt8 n

namespace RawSerializer

abbrev RawM := StateT RawSerializer Option

def new : RawSerializer := ⟨List.replicate 1024 0, 0, 0, 1024⟩

def grow_ (mem : Uninit) (b : RawSerializer) : Option RawSerializer := do
  let capacity := b.capacity * 2
  let kept ← slice b.buffer 0 b.numBytesWritten
  let newBuf ← blit (mem capacity).toList 0 kept
  some { b with buffer := newBuf, capacity }

/-- The loop of `add_`, bounded by the first argument. -/
def makeRoom (mem : Uninit) : Nat → Nat → RawSerializer → Option RawSerializer
  | 0, need, b => if need ≤ b.capacity then some b else none
  | fuel + 1, need, b =>
    if need ≤ b.capacity then some b
    else do
      let b ← b.grow_ mem
      makeRoom mem fuel need b

def add_ (mem : Uninit) (d : List UInt8) : RawM Unit := fun b => do
  let b ← makeRoom mem (b.numBytesWritten + d.length) (b.numBytesWritten + d.length) b
  let buffer ← blit b.buffer b.numBytesWritten d
  some ((), { b with buffer, numBytesWritten := b.numBytesWritten + d.length })

/-- `readCharPtr`, and what the other read functions do with `n` bytes. -/
def readCharPtr (n : Nat) : RawM (List UInt8) := fun b => do
  let out ← slice b.buffer b.numBytesRead n
  some (out, { b with numBytesRead := b.numBytesRead + n })

/-- `readString`; `strlen` finds no end in an array without a NUL. -/
def readString : RawM (List UInt8) := fun b => do
  let bs := (b.buffer.drop b.numBytesRead).takeWhile (· ≠ 0)
  let out ← slice b.buffer b.numBytesRead (bs.length + 1)
  some (out.take bs.length, { b with numBytesRead := b.numBytesRead + (bs.length + 1) })

/-! ### The array -/

structure Sound (b : RawSerializer) : Prop where
  length_eq : b.buffer.length = b.capacity
  cap_pos : 0 < b.capacity
  written_le : b.numBytesWritten ≤ b.capacity
  read_le : b.numBytesRead ≤ b.numBytesWritten

theorem sound_new : Sound new where
  length_eq := List.length_replicate
  cap_pos := by decide
  written_le := Nat.zero_le _
  read_le := le_rfl

theorem grow_keeps (mem : Uninit) {b : RawSerializer} (h : Sound b) :
    ∃ b', b.grow_ mem = some b' ∧ Sound b' ∧ b'.capacity = b.capacity * 2 ∧
      b'.buffer.take b.numBytesWritten = b.buffer.take b.numBytesWritten ∧
      b'.numBytesWritten = b.numBytesWritten ∧ b'.numBytesRead = b.numBytesRead := by
  have hlen := h.length_eq
  have hwritten := h.written_le
  have hpos := h.cap_pos
  have hkept : slice b.buffer 0 b.numBytesWritten = some (b.buffer.take b.numBytesWritten) :=
    slice_of_le (by omega)
  have hroom : 0 + (b.buffer.take b.numBytesWritten).length ≤
      (mem (b.capacity * 2)).toList.length := by
    rw [List.length_take, Vector.length_toList]
    omega
  obtain ⟨newBuf, hblit⟩ := exists_blit hroom
  refine ⟨⟨newBuf, b.numBytesWritten, b.numBytesRead, b.capacity * 2⟩, ?_, ?_, rfl, ?_, rfl, rfl⟩
  · rw [grow_, hkept, Option.bind_eq_bind, Option.bind_some, hblit]
    rfl
  · refine ⟨?_, ?_, ?_, h.read_le⟩
    · exact (length_blit hblit).trans (Vector.length_toList)
    · show 0 < b.capacity * 2
      omega
    · show b.numBytesWritten ≤ b.capacity * 2
      omega
  · have htake := take_blit hblit
    rw [List.take_zero, List.nil_append, Nat.zero_add, List.length_take,
      Nat.min_eq_left (by omega)] at htake
    exact htake

theorem makeRoom_spec (mem : Uninit) {fuel need : Nat} {b : RawSerializer} (h : Sound b)
    (hf : need ≤ b.capacity * 2 ^ fuel) : ∃ b', makeRoom mem fuel need b = some b' ∧ Sound b' ∧
      need ≤ b'.capacity ∧
      b'.buffer.take b.numBytesWritten = b.buffer.take b.numBytesWritten ∧
      b'.numBytesWritten = b.numBytesWritten ∧ b'.numBytesRead = b.numBytesRead := by
  induction fuel generalizing b with
  | zero =>
    have hn : need ≤ b.capacity := by simpa using hf
    exact ⟨b, if_pos hn, h, hn, rfl, rfl, rfl⟩
  | succ fuel ih =>
    rw [makeRoom]
    by_cases hn : need ≤ b.capacity
    · exact ⟨b, if_pos hn, h, hn, rfl, rfl, rfl⟩
    · obtain ⟨b₁, hgrow, h₁, hcap₁, htake₁, hwritten₁, hread₁⟩ := grow_keeps mem h
      obtain ⟨b', hrest, h', hcap', htake', hwritten', hread'⟩ := ih h₁ (by
        rw [hcap₁, Nat.mul_assoc, ← Nat.pow_succ']
        exact hf)
      refine ⟨b', ?_, h', hcap', ?_, hwritten'.trans hwritten₁, hread'.trans hread₁⟩
      · rw [if_neg hn, hgrow]
        exact hrest
      · rw [hwritten₁] at htake'
        exact htake'.trans htake₁

/-! ### The tape -/

instance : Tape RawSerializer where
  written b := b.buffer.take b.numBytesWritten
  unread b := (b.buffer.take b.numBytesWritten).drop b.numBytesRead
  Ready := Sound

theorem writes_add_ (mem : Uninit) (d : List UInt8) : Writes (add_ mem d) d := by
  intro b hb
  have hroom : b.numBytesWritten + d.length ≤
      b.capacity * 2 ^ (b.numBytesWritten + d.length) := by
    have h2 := Nat.lt_two_pow_self (n := b.numBytesWritten + d.length)
    have h1 := Nat.le_mul_of_pos_left (2 ^ (b.numBytesWritten + d.length)) hb.cap_pos
    omega
  obtain ⟨b₁, hmake, h₁, hcap₁, htake₁, hwritten₁, hread₁⟩ := makeRoom_spec mem hb hroom
  have hfits : b₁.numBytesWritten + d.length ≤ b₁.buffer.length := by
    rw [h₁.length_eq, hwritten₁]
    exact hcap₁
  obtain ⟨buffer, hblit⟩ := exists_blit hfits
  have hwrites : buffer.take (b₁.numBytesWritten + d.length) =
      b.buffer.take b.numBytesWritten ++ d := by
    rw [take_blit hblit, hwritten₁, htake₁]
  refine ⟨⟨buffer, b₁.numBytesWritten + d.length, b₁.numBytesRead, b₁.capacity⟩, ?_, ?_, hwrites, ?_⟩
  · rw [add_, hmake, Option.bind_eq_bind, Option.bind_some, hblit]
    rfl
  · refine ⟨(length_blit hblit).trans h₁.length_eq, h₁.cap_pos, ?_, ?_⟩
    · show b₁.numBytesWritten + d.length ≤ b₁.capacity
      rw [hwritten₁]
      exact hcap₁
    · exact le_trans h₁.read_le (Nat.le_add_right _ _)
  · refine (congrArg (List.drop b₁.numBytesRead) hwrites).trans ?_
    have hread := hb.read_le
    have hwritten := hb.written_le
    rw [hread₁, List.drop_append_of_le_length]
    · rfl
    · rw [List.length_take, hb.length_eq]
      omega

theorem unread_isPrefix (b : RawSerializer) : unread b <+: b.buffer.drop b.numBytesRead := by
  show (b.buffer.take b.numBytesWritten).drop b.numBytesRead <+: b.buffer.drop b.numBytesRead
  rw [List.drop_take]
  exact List.take_prefix _ _

theorem reads_readCharPtr (bs : List UInt8) : Reads (readCharPtr bs.length) bs bs := by
  intro b rest h
  have hunread : (b.buffer.take b.numBytesWritten).drop b.numBytesRead = bs ++ rest := h
  have hlen := congrArg List.length hunread
  rw [List.length_drop, List.length_take, List.length_append] at hlen
  have hslice : slice b.buffer b.numBytesRead bs.length = some bs := by
    refine slice_of_isPrefix ((List.prefix_append bs rest).trans ?_)
    rw [← hunread]
    exact unread_isPrefix b
  refine ⟨{ b with numBytesRead := b.numBytesRead + bs.length }, ?_, ?_, rfl, ?_⟩
  · rw [readCharPtr, hslice]
    rfl
  · intro hb
    have hread := hb.read_le
    have hwritten := hb.written_le
    have hlength := hb.length_eq
    refine ⟨hlength, hb.cap_pos, hwritten, ?_⟩
    show b.numBytesRead + bs.length ≤ b.numBytesWritten
    omega
  · show (b.buffer.take b.numBytesWritten).drop (b.numBytesRead + bs.length) = rest
    rw [← List.drop_drop, hunread, List.drop_left]

theorem reads_readString {bs : List UInt8} (h : NulFree bs) :
    Reads readString (bs ++ [0]) bs := by
  intro b rest hb
  obtain ⟨junk, hjunk⟩ := unread_isPrefix b
  have htake : (b.buffer.drop b.numBytesRead).takeWhile (· ≠ 0) = bs := by
    rw [← hjunk, hb, List.append_assoc, List.append_assoc]
    exact takeWhile_append_zero h _
  obtain ⟨b', hread, hready, hwritten, hrest⟩ := reads_readCharPtr (bs ++ [0]) b rest hb
  obtain ⟨out, hslice, hout⟩ := Option.bind_eq_some_iff.mp hread
  cases hout
  refine ⟨_, ?_, hready, hwritten, hrest⟩
  rw [List.length_append, List.length_singleton] at hslice ⊢
  rw [readString, htake, hslice, Option.bind_eq_bind, Option.bind_some, List.take_left]

/-! ### The array forgotten -/

/-- The serializer without what is behind the bytes written. -/
def toSerializer (b : RawSerializer) : Serializer :=
  ⟨b.buffer.take b.numBytesWritten, b.numBytesRead, b.capacity⟩

theorem toSerializer_makeRoom (mem : Uninit) (fuel need : Nat) {b : RawSerializer} (h : Sound b) :
    (makeRoom mem fuel need b).map toSerializer = Serializer.makeRoom fuel need b.toSerializer := by
  induction fuel generalizing b with
  | zero =>
    rw [makeRoom, Serializer.makeRoom, apply_ite (Option.map toSerializer)]
    rfl
  | succ fuel ih =>
    rw [makeRoom, Serializer.makeRoom]
    by_cases hn : need ≤ b.capacity
    · rw [if_pos hn]
      exact (if_pos hn).symm
    · obtain ⟨b₁, hgrow, h₁, hcap₁, htake₁, hwritten₁, hread₁⟩ := grow_keeps mem h
      have hgrown : b₁.toSerializer = b.toSerializer.grow_ := by
        rw [toSerializer, hwritten₁, htake₁, hread₁, hcap₁]
        rfl
      rw [if_neg hn, hgrow, Option.bind_eq_bind, Option.bind_some, ih h₁, hgrown]
      exact (if_neg hn).symm

/-- **`add_` is the one of the serializer whose buffer is what was written.** -/
theorem toSerializer_add_ (mem : Uninit) {d : List UInt8} {b : RawSerializer} (h : Sound b) :
    (add_ mem d b).map (fun p => p.2.toSerializer) =
      (Serializer.add_ d b.toSerializer).map Prod.snd := by
  have hlen : b.toSerializer.numBytesWritten = b.numBytesWritten := by
    have hle := h.written_le
    show (b.buffer.take b.numBytesWritten).length = b.numBytesWritten
    rw [List.length_take, h.length_eq]
    omega
  obtain ⟨b', hadd, hsound, hwritten, -⟩ := writes_add_ mem d b h
  have hmade :=
    toSerializer_makeRoom mem (b.numBytesWritten + d.length) (b.numBytesWritten + d.length) h
  obtain ⟨b₁, hmake, hcopy⟩ := Option.bind_eq_some_iff.mp hadd
  obtain ⟨buffer, hblit, hb'⟩ := Option.bind_eq_some_iff.mp hcopy
  rw [hmake, Option.map_some] at hmade
  rw [hadd, Serializer.add_, hlen, ← hmade]
  cases hb'
  refine congrArg some (Serializer.mk.injEq .. |>.mpr ⟨?_, rfl, rfl⟩)
  exact take_blit hblit

/-- **A read of bytes that were written gives them.** -/
theorem toSerializer_readCharPtr {n : Nat} {out : List UInt8} {b : RawSerializer} {s : Serializer}
    (h : Serializer.readBytes n b.toSerializer = some (out, s)) :
    ∃ b', readCharPtr n b = some (out, b') ∧ b'.toSerializer = s := by
  rw [Serializer.readBytes] at h
  split at h
  · rename_i hle
    cases h
    have hn : ((b.toSerializer.buffer.drop b.numBytesRead).take n).length = n := by
      rw [List.length_take, List.length_drop]
      exact Nat.min_eq_left hle
    have hslice : slice b.buffer b.numBytesRead n =
        some ((b.toSerializer.buffer.drop b.numBytesRead).take n) := by
      conv_lhs => rw [← hn]
      exact slice_of_isPrefix ((List.take_prefix _ _).trans (unread_isPrefix b))
    refine ⟨{ b with numBytesRead := b.numBytesRead + n }, ?_, rfl⟩
    rw [readCharPtr, hslice]
    rfl
  · cases h

theorem toSerializer_readString {out : List UInt8} {b : RawSerializer} {s : Serializer}
    (h : Serializer.readString b.toSerializer = some (out, s)) :
    ∃ b', readString b = some (out, b') ∧ b'.toSerializer = s := by
  obtain ⟨⟨all, s₁⟩, hread, hout⟩ := Option.bind_eq_some_iff.mp h
  cases hout
  obtain ⟨b', hraw, hb'⟩ := toSerializer_readCharPtr hread
  obtain ⟨junk, hjunk⟩ := unread_isPrefix b
  -- a byte behind the string was written, so it ends there
  have hend : ((unread b).takeWhile (· ≠ 0)).length ≠ (unread b).length := by
    intro heq
    rw [Serializer.readBytes] at hread
    split at hread
    · rename_i hle
      have hlen : (unread b).length = b.toSerializer.numBytesWritten - b.numBytesRead :=
        List.length_drop
      have hle' : ((unread b).takeWhile (· ≠ 0)).length + 1 ≤
          b.toSerializer.numBytesWritten - b.numBytesRead := hle
      omega
    · cases hread
  have htake : (b.buffer.drop b.numBytesRead).takeWhile (· ≠ 0) =
      (unread b).takeWhile (· ≠ 0) := by
    rw [← hjunk, List.takeWhile_append, if_neg hend]
  obtain ⟨all', hslice, hall⟩ := Option.bind_eq_some_iff.mp hraw
  cases hall
  refine ⟨_, ?_, hb'⟩
  rw [readString, htake]
  show (slice b.buffer b.numBytesRead (((unread b).takeWhile (· ≠ 0)).length + 1)).bind _ = _
  rw [show slice b.buffer b.numBytesRead (((unread b).takeWhile (· ≠ 0)).length + 1) = _ from hslice]
  rfl

end RawSerializer

end Eau2
