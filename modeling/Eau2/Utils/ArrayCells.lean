import Eau2.Base.Served
import Eau2.Base.Slots
import Eau2.Serial.Serializer

/-!
# Arrays

`utils/array.h` with all cells of `objList_`.  The elements are pointers, of which an array
knows nothing but what `equals` makes of them; the lists that they are are in `List`.

* `Shows`: the list that an array holds.
* `Shows.answer`: every call does to the array what it does to the list.
* `array_refines`: **any sequence of calls answers as the list does, inside the array.**
-/

namespace Eau2

/-- An `Array` with its whole `objList_`. -/
structure ArrayObj (β : Type) where
  objList : Slots β
  capacity : SizeT
  len : SizeT
  deriving DecidableEq, Repr

namespace ArrayObj

variable {β : Type}

open Slots

/-- `new Object*[n]`: an array of more bytes than a `size_t` counts is an exception. -/
def alloc (n : Nat) : Except Halt (Slots β) :=
  if n * 8 < 2 ^ 64 then .ok (List.replicate n none) else .error .exit

def new (initialCapacity : SizeT) : Except Halt (ArrayObj β) := do
  let objList ← alloc initialCapacity.toNat
  .ok ⟨objList, initialCapacity, 0⟩

def length (arr : ArrayObj β) : SizeT := arr.len

/-- `get`; an index out of bounds exits. -/
def get (index : SizeT) (arr : ArrayObj β) : Except Halt β :=
  if arr.length ≤ index then .error .exit else load arr.objList index.toNat

def hasRoomForMoreElems_ (numElements : Int32) (arr : ArrayObj β) : Bool :=
  arr.len + numElements.toInt64.toUInt64 ≤ arr.capacity

def expandArray_ (arr : ArrayObj β) : Except Halt (ArrayObj β) := do
  let capacity := arr.capacity * 2
  let tmp ← alloc capacity.toNat
  let tmp ← copy arr.objList arr.len.toNat tmp
  .ok { arr with objList := tmp, capacity := capacity }

def add (o : β) (arr : ArrayObj β) : Except Halt (ArrayObj β) := do
  let arr ← if arr.hasRoomForMoreElems_ 1 then .ok arr else arr.expandArray_
  let objList ← store arr.objList arr.len.toNat o
  .ok { arr with objList := objList, len := arr.len + 1 }

/-- `set`; an index out of bounds exits, and at the length it is an assertion that does. -/
def set (index : SizeT) (o : β) (arr : ArrayObj β) : Except Halt (β × ArrayObj β) := do
  if arr.len < index then .error .exit
  else if index = arr.len then .error .exit
  else
    let rep ← load arr.objList index.toNat
    let objList ← store arr.objList index.toNat o
    .ok (rep, { arr with objList := objList })

/-- The loop of `remove` from `i` on, with `n` elements to move. -/
def moveOver : Nat → Nat → Slots β → Except Halt (Slots β)
  | 0, _, objList => .ok objList
  | n + 1, i, objList => do
    let o ← load objList (i + 1)
    let objList ← store objList i o
    moveOver n (i + 1) objList

/-- `remove`; an index out of bounds exits. -/
def remove (index : SizeT) (arr : ArrayObj β) : Except Halt (β × ArrayObj β) := do
  if arr.len ≤ index then .error .exit
  else
    let val ← arr.get index
    let len := arr.len - 1
    let objList ← moveOver (len.toNat - index.toNat) index.toNat arr.objList
    .ok (val, { arr with objList := objList, len := len })

/-- The loop of `index_of` from `i` on, with `n` elements to go. -/
def indexOfFrom (equals : β → β → Except Halt Bool) (o : β) (arr : ArrayObj β) :
    Nat → Nat → Except Halt Int32
  | 0, _ => .ok (-1)
  | n + 1, i => do
    let x ← arr.get (UInt64.ofNat i)
    let found ← equals x o
    if found then .ok (Int32.ofNat i) else indexOfFrom equals o arr n (i + 1)

/-- `index_of`; `equals x o` is what `x->equals(o)` comes to. -/
def indexOf (equals : β → β → Except Halt Bool) (o : β) (arr : ArrayObj β) : Except Halt Int32 :=
  indexOfFrom equals o arr arr.length.toNat 0

/-- The loop of `deleteObjList_` from `i` on, an `int`, with `n` elements to go; it returns
what is deleted. -/
def deleteFrom (objList : Slots β) : Nat → Nat → Except Halt (List β)
  | 0, _ => .ok []
  | n + 1, i => do
    let o ← load objList i
    if i + 1 < 2 ^ 31 then
      let os ← deleteFrom objList n (i + 1)
      .ok (o :: os)
    else .error .undefined

def deleteObjList_ (arr : ArrayObj β) : Except Halt (List β) :=
  deleteFrom arr.objList arr.len.toNat 0

/-- `clear`, and what it deletes. -/
def clear (arr : ArrayObj β) : Except Halt (List β × ArrayObj β) := do
  let os ← arr.deleteObjList_
  let objList ← alloc 2
  .ok (os, ⟨objList, 2, 0⟩)

/-! ### Calls -/

inductive Call (β : Type)
  | add (o : β)
  | set (index : SizeT) (o : β)
  | remove (index : SizeT)
  | get (index : SizeT)
  | indexOf (o : β)
  | clear
  deriving DecidableEq

inductive Reply (β : Type)
  | done
  | object (o : β)
  | index (i : Int32)
  | deleted (os : List β)
  deriving DecidableEq

def answer (equals : β → β → Except Halt Bool) (arr : ArrayObj β) :
    Call β → Except Halt (Reply β × ArrayObj β)
  | .add o => do
    let arr ← arr.add o
    .ok (.done, arr)
  | .set index o => do
    let (old, arr) ← arr.set index o
    .ok (.object old, arr)
  | .remove index => do
    let (val, arr) ← arr.remove index
    .ok (.object val, arr)
  | .get index => do
    let o ← arr.get index
    .ok (.object o, arr)
  | .indexOf o => do
    let i ← arr.indexOf equals o
    .ok (.index i, arr)
  | .clear => do
    let (os, arr) ← arr.clear
    .ok (.deleted os, arr)

/-- The first place from `i` on whose object is equal to `o`. -/
def firstEqual (equals : β → β → Except Halt Bool) (o : β) : Nat → List β → Except Halt (Option Nat)
  | _, [] => .ok none
  | i, x :: xs => do
    let found ← equals x o
    if found then .ok (some i) else firstEqual equals o (i + 1) xs

/-- What the call does to a list: an index out of bounds exits. -/
def listAnswer (equals : β → β → Except Halt Bool) (l : List β) :
    Call β → Except Halt (Reply β × List β)
  | .add o => .ok (.done, l ++ [o])
  | .set index o =>
    match l[index.toNat]? with
    | some old => .ok (.object old, l.set index.toNat o)
    | none => .error .exit
  | .remove index =>
    match l[index.toNat]? with
    | some old => .ok (.object old, l.eraseIdx index.toNat)
    | none => .error .exit
  | .get index =>
    match l[index.toNat]? with
    | some o => .ok (.object o, l)
    | none => .error .exit
  | .indexOf o => do
    let found ← firstEqual equals o 0 l
    .ok (.index (match found with
      | some i => Int32.ofNat i
      | none => -1), l)
  | .clear => .ok (.deleted l, [])

/-- The array has `capacity_` cells, and the list fits. -/
structure Keeps (arr : ArrayObj β) (l : List β) : Prop where
  fits : arr.len ≤ arr.capacity
  allocated : arr.objList.length = arr.capacity.toNat
  length : arr.length.toNat = l.length

/-! ### One call -/

/-- The array holds the list, in front of what else is in its cells. -/
structure Shows (arr : ArrayObj β) (l : List β) : Prop where
  objList : ∃ rest, arr.objList = filled l rest
  allocated : arr.objList.length = arr.capacity.toNat
  len : arr.len.toNat = l.length
  capacity : arr.capacity ≠ 0

variable {arr : ArrayObj β} {l : List β}

theorem Shows.length_le (h : Shows arr l) : l.length ≤ arr.capacity.toNat := by
  obtain ⟨rest, hrest⟩ := h.objList
  rw [← h.allocated, hrest, length_filled]
  omega

theorem Shows.keeps (h : Shows arr l) : Keeps arr l where
  fits := by
    rw [UInt64.le_iff_toNat_le, h.len]
    exact h.length_le
  allocated := h.allocated
  length := h.len

theorem shows_new {cap : SizeT} (hcap : cap ≠ 0) (h : new cap = .ok arr) : Shows arr [] := by
  rw [new, alloc] at h
  split at h
  · cases h
    exact ⟨⟨_, rfl⟩, List.length_replicate, rfl, hcap⟩
  · cases h

theorem Shows.len_le_iff (h : Shows arr l) (index : SizeT) :
    arr.len ≤ index ↔ l.length ≤ index.toNat := by
  rw [UInt64.le_iff_toNat_le, h.len]

theorem Shows.load (h : Shows arr l) {i : Nat} (hi : i < l.length) :
    load arr.objList i = .ok l[i] := by
  obtain ⟨rest, hrest⟩ := h.objList
  rw [hrest]
  exact load_filled hi rest

theorem Shows.get (h : Shows arr l) {index : SizeT} (hi : index.toNat < l.length) :
    arr.get index = .ok l[index.toNat] := by
  have hin : ¬ arr.len ≤ index := by
    rw [h.len_le_iff]
    omega
  exact (if_neg hin).trans (h.load hi)

theorem Shows.store (h : Shows arr l) {objList : Slots β} {l' : List β} {len : SizeT}
    (hobj : ∃ rest, objList = filled l' rest) (hlen : objList.length = arr.objList.length)
    (hl : len.toNat = l'.length) : Shows { arr with objList := objList, len := len } l' where
  objList := hobj
  allocated := hlen.trans h.allocated
  len := hl
  capacity := h.capacity

/-- **A full array is doubled.** -/
theorem Shows.expandArray_ (h : Shows arr l) (hfull : arr.capacity.toNat ≤ l.length)
    (hlt : l.length < 2 ^ 31) :
    ∃ arr', arr.expandArray_ = .ok arr' ∧ Shows arr' l ∧ l.length < arr'.capacity.toNat := by
  have hle := h.length_le
  have hpos : arr.capacity.toNat ≠ 0 := fun hz => h.capacity (UInt64.toNat_inj.mp hz)
  have hcap : (arr.capacity * 2).toNat = arr.capacity.toNat * 2 := by
    have htwo : (2 : UInt64).toNat = 2 := rfl
    rw [UInt64.toNat_mul, htwo]
    exact Nat.mod_eq_of_lt (by omega)
  have halloc : alloc (arr.capacity * 2).toNat =
      .ok (List.replicate (arr.capacity * 2).toNat (none : Option β)) := if_pos (by omega)
  have hroom : l.length ≤ (List.replicate (arr.capacity * 2).toNat (none : Option β)).length := by
    rw [List.length_replicate]
    omega
  obtain ⟨rest, hrest⟩ := h.objList
  have hcopy := copy_filled l rest hroom
  refine ⟨{ arr with
      objList := filled l ((List.replicate (arr.capacity * 2).toNat none).drop l.length),
      capacity := arr.capacity * 2 }, ?_, ⟨⟨_, rfl⟩, ?_, h.len, ?_⟩, ?_⟩
  · rw [ArrayObj.expandArray_, halloc, h.len, hrest]
    show (copy (filled l rest) l.length _).bind _ = _
    rw [hcopy]
    rfl
  · show (filled l _).length = (arr.capacity * 2).toNat
    rw [length_filled, List.length_drop, List.length_replicate]
    omega
  · intro hz
    have hzero : (arr.capacity * 2).toNat = 0 := congrArg UInt64.toNat hz
    rw [hcap] at hzero
    omega
  · show l.length < (arr.capacity * 2).toNat
    omega

theorem Shows.hasRoom_iff (h : Shows arr l) (hlt : l.length < 2 ^ 31) :
    arr.hasRoomForMoreElems_ 1 = true ↔ l.length < arr.capacity.toNat := by
  have hone : (1 : Int32).toInt64.toUInt64 = 1 := rfl
  have hnext : (arr.len + 1).toNat = l.length + 1 := by
    have honeNat : (1 : UInt64).toNat = 1 := rfl
    rw [UInt64.toNat_add, h.len, honeNat]
    exact Nat.mod_eq_of_lt (by omega)
  rw [hasRoomForMoreElems_, hone, decide_eq_true_iff, UInt64.le_iff_toNat_le, hnext]
  exact Iff.rfl

theorem Shows.add (h : Shows arr l) (hlt : l.length < 2 ^ 31) (o : β) :
    ∃ arr', arr.add o = .ok arr' ∧ Shows arr' (l ++ [o]) := by
  obtain ⟨arr₁, hadd, h₁, hroom⟩ : ∃ arr₁ : ArrayObj β,
      arr.add o = (Slots.store arr₁.objList arr₁.len.toNat o).bind (fun objList =>
        .ok { arr₁ with objList := objList, len := arr₁.len + 1 }) ∧
      Shows arr₁ l ∧ l.length < arr₁.capacity.toNat := by
    rw [ArrayObj.add]
    by_cases hfits : l.length < arr.capacity.toNat
    · rw [if_pos ((h.hasRoom_iff hlt).mpr hfits)]
      exact ⟨arr, rfl, h, hfits⟩
    · rw [if_neg fun hc => hfits ((h.hasRoom_iff hlt).mp hc)]
      obtain ⟨arr₁, hgrow, h₁, hroom⟩ := h.expandArray_ (by omega) hlt
      rw [hgrow]
      exact ⟨arr₁, rfl, h₁, hroom⟩
  obtain ⟨rest, hrest⟩ := h₁.objList
  cases rest with
  | nil =>
    have hlen := h₁.allocated
    rw [hrest, length_filled, List.length_nil] at hlen
    omega
  | cons cell rest =>
    have hstore := store_filled_next l cell rest o
    have hnext : (arr₁.len + 1).toNat = (l ++ [o]).length := by
      have hone : (1 : UInt64).toNat = 1 := rfl
      rw [UInt64.toNat_add, h₁.len, hone, List.length_append, List.length_singleton]
      exact Nat.mod_eq_of_lt (by omega)
    refine ⟨_, ?_, h₁.store ⟨rest, rfl⟩ ?_ hnext⟩
    · rw [hadd, hrest, h₁.len, hstore]
      rfl
    · rw [hrest, length_filled, length_filled, List.length_append, List.length_singleton,
        List.length_cons]
      omega

theorem Shows.set (h : Shows arr l) {index : SizeT} (hi : index.toNat < l.length) (o : β) :
    ∃ arr', arr.set index o = .ok (l[index.toNat], arr') ∧ Shows arr' (l.set index.toNat o) := by
  have hin : ¬ arr.len < index := by
    rw [UInt64.lt_iff_toNat_lt, h.len]
    omega
  have hne : index ≠ arr.len := by
    intro heq
    rw [heq, h.len] at hi
    omega
  obtain ⟨rest, hrest⟩ := h.objList
  have hlen : arr.len.toNat = (l.set index.toNat o).length := by
    rw [List.length_set, h.len]
  refine ⟨_, ?_, h.store ⟨rest, rfl⟩ ?_ hlen⟩
  · rw [ArrayObj.set, if_neg hin, if_neg hne, h.load hi, hrest]
    show (Slots.store (filled l rest) index.toNat o).bind _ = _
    rw [store_filled hi]
    rfl
  · rw [hrest, length_filled, length_filled, List.length_set]

/-- **The loop of `remove` closes the gap.** -/
theorem moveOver_filled {n i : Nat} (hl : i + n + 1 = l.length) (rest : Slots β) :
    ∃ cell, moveOver n i (filled l rest) = .ok (filled (l.eraseIdx i) (cell :: rest)) := by
  induction n generalizing i l with
  | zero =>
    have hi : i < l.length := by omega
    refine ⟨some l[i], ?_⟩
    have hsplit : l = l.eraseIdx i ++ [l[i]] := by
      rw [List.eraseIdx_eq_take_drop_succ, List.drop_eq_nil_of_le (by omega), List.append_nil,
        List.take_append_getElem, List.take_of_length_le (by omega)]
    show Except.ok (filled l rest) = _
    rw [show filled l rest = filled (l.eraseIdx i) (filled [l[i]] rest) by
      rw [← filled_append, ← hsplit]]
    rfl
  | succ n ih =>
    have hi : i < l.length := by omega
    have hi' : i + 1 < l.length := by omega
    have hset : (l.set i l[i + 1]).eraseIdx (i + 1) = l.eraseIdx i := by
      refine List.ext_getElem? fun j => ?_
      rw [List.getElem?_eraseIdx, List.getElem?_eraseIdx]
      rcases lt_trichotomy j i with hj | rfl | hj
      · rw [if_pos (by omega), if_pos hj, List.getElem?_set_ne (by omega)]
      · rw [if_pos (by omega), if_neg (by omega), List.getElem?_set_self hi,
          List.getElem?_eq_getElem hi']
      · rw [if_neg (by omega), if_neg (by omega), List.getElem?_set_ne (by omega)]
    obtain ⟨cell, hrec⟩ := @ih (l.set i l[i + 1]) (i + 1) (by rw [List.length_set]; omega)
    refine ⟨cell, ?_⟩
    rw [moveOver, load_filled hi']
    show (Slots.store (filled l rest) i l[i + 1]).bind _ = _
    rw [store_filled hi]
    show moveOver n (i + 1) (filled (l.set i l[i + 1]) rest) = _
    rw [hrec, hset]

theorem Shows.remove (h : Shows arr l) {index : SizeT} (hi : index.toNat < l.length) :
    ∃ arr', arr.remove index = .ok (l[index.toNat], arr') ∧
      Shows arr' (l.eraseIdx index.toNat) := by
  have hin : ¬ arr.len ≤ index := by
    rw [h.len_le_iff]
    omega
  have hlen : (arr.len - 1).toNat = l.length - 1 := by
    have hone : (1 : UInt64) ≤ arr.len := by
      rw [UInt64.le_iff_toNat_le, h.len]
      show 1 ≤ l.length
      omega
    rw [UInt64.toNat_sub_of_le _ _ hone, h.len]
    rfl
  have hlen' : (arr.len - 1).toNat = (l.eraseIdx index.toNat).length := by
    rw [hlen, List.length_eraseIdx_of_lt hi]
  obtain ⟨rest, hrest⟩ := h.objList
  obtain ⟨cell, hmove⟩ := @moveOver_filled β l ((arr.len - 1).toNat - index.toNat) index.toNat
    (by omega) rest
  refine ⟨_, ?_, h.store ⟨cell :: rest, rfl⟩ ?_ hlen'⟩
  · rw [ArrayObj.remove, if_neg hin, h.get hi, hrest]
    show (moveOver _ _ (filled l rest)).bind _ = _
    rw [hmove]
    rfl
  · rw [hrest, length_filled, length_filled, List.length_eraseIdx_of_lt hi, List.length_cons]
    omega

theorem Shows.indexOfFrom (h : Shows arr l) (hlt : l.length < 2 ^ 31)
    (equals : β → β → Except Halt Bool) (o : β) {n i : Nat} (hn : i + n = l.length) :
    ArrayObj.indexOfFrom equals o arr n i =
      (firstEqual equals o i (l.drop i)).map fun found => match found with
        | some i => Int32.ofNat i
        | none => -1 := by
  induction n generalizing i with
  | zero =>
    rw [List.drop_eq_nil_of_le (by omega)]
    rfl
  | succ n ih =>
    have hi : i < l.length := by omega
    have hidx : (UInt64.ofNat i).toNat = i :=
      UInt64.toNat_ofNat_of_lt' (show i < 2 ^ 64 by omega)
    have hget : arr.get (UInt64.ofNat i) = .ok l[i] := by
      rw [h.get (by rwa [hidx])]
      simp only [hidx]
    rw [ArrayObj.indexOfFrom, hget, List.drop_eq_getElem_cons hi, firstEqual]
    show (equals l[i] o).bind _ = ((equals l[i] o).bind _).map _
    cases equals l[i] o with
    | error e => rfl
    | ok found =>
      cases found with
      | true => rfl
      | false => exact ih (by omega)

theorem Shows.deleteFrom (h : Shows arr l) (hlt : l.length < 2 ^ 31) {n i : Nat}
    (hn : i + n = l.length) : ArrayObj.deleteFrom arr.objList n i = .ok (l.drop i) := by
  induction n generalizing i with
  | zero =>
    rw [List.drop_eq_nil_of_le (by omega)]
    rfl
  | succ n ih =>
    have hi : i < l.length := by omega
    rw [ArrayObj.deleteFrom, h.load hi, List.drop_eq_getElem_cons hi]
    show (if i + 1 < 2 ^ 31 then (ArrayObj.deleteFrom arr.objList n (i + 1)).bind _ else _) = _
    rw [if_pos (by omega), ih (by omega)]
    rfl

theorem Shows.clear (h : Shows arr l) (hlt : l.length < 2 ^ 31) :
    ∃ arr', arr.clear = .ok (l, arr') ∧ Shows arr' [] := by
  have hdelete : arr.deleteObjList_ = .ok l := by
    rw [deleteObjList_, h.len]
    exact h.deleteFrom hlt (Nat.zero_add _)
  refine ⟨⟨List.replicate 2 none, 2, 0⟩, ?_, ⟨⟨_, rfl⟩, rfl, rfl, ?_⟩⟩
  · rw [ArrayObj.clear, hdelete]
    rfl
  · show (2 : SizeT) ≠ 0
    decide

/-- **A call does to the array what it does to the list.** -/
theorem Shows.answer (h : Shows arr l) (hlt : l.length < 2 ^ 31)
    (equals : β → β → Except Halt Bool) (c : Call β) :
    ExceptRel (Agree Shows) (arr.answer equals c) (listAnswer equals l c) := by
  cases c with
  | add o =>
    obtain ⟨arr', hadd, h'⟩ := h.add hlt o
    rw [ArrayObj.answer, hadd]
    exact ExceptRel.ok ⟨rfl, h'⟩
  | set index o =>
    by_cases hi : index.toNat < l.length
    · obtain ⟨arr', hset, h'⟩ := h.set hi o
      rw [ArrayObj.answer, hset, listAnswer, List.getElem?_eq_getElem hi]
      exact ExceptRel.ok ⟨rfl, h'⟩
    · have hexit : arr.set index o = .error .exit := by
        by_cases hlast : arr.len < index
        · rw [ArrayObj.set, if_pos hlast]
        · have heq : index = arr.len := by
            rw [UInt64.lt_iff_toNat_lt, h.len] at hlast
            rw [← UInt64.toNat_inj, h.len]
            omega
          rw [ArrayObj.set, if_neg hlast, if_pos heq]
      rw [ArrayObj.answer, hexit, listAnswer, List.getElem?_eq_none (by omega)]
      exact ExceptRel.error _
  | remove index =>
    by_cases hi : index.toNat < l.length
    · obtain ⟨arr', hremove, h'⟩ := h.remove hi
      rw [ArrayObj.answer, hremove, listAnswer, List.getElem?_eq_getElem hi]
      exact ExceptRel.ok ⟨rfl, h'⟩
    · have hexit : arr.remove index = .error .exit :=
        if_pos ((h.len_le_iff index).mpr (by omega))
      rw [ArrayObj.answer, hexit, listAnswer, List.getElem?_eq_none (by omega)]
      exact ExceptRel.error _
  | get index =>
    by_cases hi : index.toNat < l.length
    · rw [ArrayObj.answer, h.get hi, listAnswer, List.getElem?_eq_getElem hi]
      exact ExceptRel.ok ⟨rfl, h⟩
    · have hexit : arr.get index = .error .exit :=
        if_pos ((h.len_le_iff index).mpr (by omega))
      rw [ArrayObj.answer, hexit, listAnswer, List.getElem?_eq_none (by omega)]
      exact ExceptRel.error _
  | indexOf o =>
    have hloop := h.indexOfFrom hlt equals o (Nat.zero_add l.length)
    rw [ArrayObj.answer, ArrayObj.indexOf, ArrayObj.length, h.len, hloop, List.drop_zero,
      listAnswer]
    cases firstEqual equals o 0 l with
    | error e => exact ExceptRel.error e
    | ok found => exact ExceptRel.ok ⟨rfl, h⟩
  | clear =>
    obtain ⟨arr', hclear, h'⟩ := h.clear hlt
    rw [ArrayObj.answer, hclear, listAnswer]
    exact ExceptRel.ok ⟨rfl, h'⟩

/-! ### All calls -/

theorem firstEqual_eq {equals : β → β → Except Halt Bool} {o : β} {e : β → Bool}
    (h : ∀ x, equals x o = .ok (e x)) (i : Nat) (l : List β) :
    firstEqual equals o i l = .ok ((l.findIdx? e).map (· + i)) := by
  induction l generalizing i with
  | nil => rfl
  | cons x l ih =>
    rw [firstEqual, h x, List.findIdx?_cons]
    show (if e x then _ else firstEqual equals o (i + 1) l) = _
    cases e x with
    | true => simp
    | false =>
      rw [if_neg (by simp), ih]
      simp [Function.comp_def, Nat.add_comm 1, Nat.add_assoc]

theorem listAnswer_length_le {equals : β → β → Except Halt Bool} {l l' : List β} {c : Call β}
    {r : Reply β} (h : listAnswer equals l c = .ok (r, l')) : l'.length ≤ l.length + 1 := by
  cases c with
  | add o =>
    cases h
    rw [List.length_append, List.length_singleton]
  | set index o =>
    rw [listAnswer] at h
    split at h <;> cases h
    rw [List.length_set]
    omega
  | remove index =>
    rw [listAnswer] at h
    split at h <;> cases h
    exact (List.length_eraseIdx_le _ _).trans (Nat.le_succ _)
  | get index =>
    rw [listAnswer] at h
    split at h <;> cases h
    omega
  | indexOf o =>
    rw [listAnswer] at h
    cases hfound : firstEqual equals o 0 l with
    | error e =>
      rw [hfound] at h
      cases h
    | ok found =>
      rw [hfound] at h
      cases h
      omega
  | clear =>
    cases h
    exact Nat.zero_le _

/-- The list ends the program only by an index out of bounds, or as `equals` does. -/
theorem listAnswer_ne_undefined {equals : β → β → Except Halt Bool}
    (hequals : ∀ x o, equals x o ≠ .error .undefined) (l : List β) (c : Call β) :
    listAnswer equals l c ≠ .error .undefined := by
  have hfirst : ∀ (o : β) (i : Nat), firstEqual equals o i l ≠ .error .undefined := by
    intro o
    induction l with
    | nil => intro i h; cases h
    | cons x l ih =>
      intro i h
      rw [firstEqual] at h
      cases hx : equals x o with
      | error e =>
        rw [hx] at h
        cases h
        exact hequals x o hx
      | ok found =>
        rw [hx] at h
        cases found with
        | true => cases h
        | false => exact ih (i + 1) h
  cases c with
  | add o => intro h; cases h
  | clear => intro h; cases h
  | set index o => intro h; rw [listAnswer] at h; split at h <;> cases h
  | remove index => intro h; rw [listAnswer] at h; split at h <;> cases h
  | get index => intro h; rw [listAnswer] at h; split at h <;> cases h
  | indexOf o =>
    intro h
    rw [listAnswer] at h
    cases hfound : firstEqual equals o 0 l with
    | error e =>
      rw [hfound] at h
      cases h
      exact hfirst o 0 hfound
    | ok found =>
      rw [hfound] at h
      cases h

/-- **An array of less than `2 ^ 31` objects is a list**: all along the calls it gives the
same replies and exits alike, the list fits into its cells, and nothing outside of them is
read or written. -/
theorem array_refines (equals : β → β → Except Halt Bool) {cap : SizeT} (hcap : 1 ≤ cap)
    (hnew : new cap = .ok arr) {calls : List (Call β)}
    (hsmall : ∀ made rs l, made <+: calls → serveE (listAnswer equals) [] made = .ok (rs, l) →
      l.length < 2 ^ 31) {made : List (Call β)} (hmade : made <+: calls) :
    ExceptRel (Agree Keeps) (serveE (answer equals) arr made)
        (serveE (listAnswer equals) [] made) ∧
      ((∀ x o, equals x o ≠ .error .undefined) →
        serveE (answer equals) arr made ≠ .error .undefined) := by
  have hne : cap ≠ 0 := by
    rintro rfl
    exact absurd hcap (by decide)
  have hrel : ExceptRel (Agree Shows) (serveE (answer equals) arr made)
      (serveE (listAnswer equals) [] made) :=
    serveE_refines (fun h hlt c => h.answer hlt equals c) (shows_new hne hnew)
      fun made' rs l hmade' hrun => hsmall made' rs l (hmade'.trans hmade) hrun
  refine ⟨hrel.mono fun p q hpq => ⟨hpq.1, hpq.2.keeps⟩, fun hequals hundef => ?_⟩
  rw [hundef] at hrel
  generalize hlist : serveE (listAnswer equals) [] made = r at hrel
  cases hrel
  exact serveE_ne_error (listAnswer_ne_undefined hequals) [] made hlist

/-- Five calls on an array of one cell. -/
theorem array_refines_five : ∃ arr : ArrayObj Nat, new 1 = .ok arr ∧
    ExceptRel (Agree Keeps)
      (serveE (answer fun x o => .ok (x == o)) arr
        [.add 7, .add 8, .remove 0, .indexOf 8, .clear])
      (serveE (listAnswer fun x o => .ok (x == o)) []
        [.add 7, .add 8, .remove 0, .indexOf 8, .clear]) := by
  refine ⟨_, rfl, (array_refines _ (show (1 : SizeT) ≤ 1 by decide) rfl
    (fun made rs l hmade hrun => ?_) (List.prefix_refl _)).1⟩
  have hle : l.length ≤ ([] : List Nat).length + made.length :=
    serveE_le (fun h => listAnswer_length_le h) hrun
  have hlen := hmade.length_le
  simp only [List.length_nil, List.length_cons] at hle hlen
  omega

end ArrayObj

end Eau2
