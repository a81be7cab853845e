import Eau2.Store.KeyBuff
import Eau2.Utils.StrCells

/-!
# Key buffers on the heap

`store/keybuff.h` with its arrays.  `get` takes a `String` that shares the array of the
buffer, writes the text of the original key into that array and only then copies the key
out of it: the text is the one that is there, and there is room for it, so that no array
is deleted in between.

* `KeyBuffObj.get_spec`: it is the `get` of `Store/KeyBuff.lean`, and its key has an array
  of its own.
* `keys_built`: **every key is the original text and the pieces since the last one, and
  stays so**.
-/

namespace Eau2

open Bytes Heap

/-! ### Keys -/

structure KeyObj where
  kStr : StringObj
  homeNode : SizeT
  deriving DecidableEq, Repr

namespace KeyObj

/-- `Key(keyStr, node)` -/
def ofCStr (mem : Junk UInt8) (keyStr : Nat) (node : SizeT) (h : Cells) :
    Option (KeyObj × Cells) := do
  let (kStr, h) ← StringObj.ofCStr mem keyStr h
  some (⟨kStr, node⟩, h)

def clone (mem : Junk UInt8) (k : KeyObj) (h : Cells) : Option (KeyObj × Cells) := do
  let (kStr, h) ← k.kStr.clone mem h
  some ({ k with kStr }, h)

/-- The key that a `Key` shows. -/
def Shows (h : Cells) (k : KeyObj) (key : Key) : Prop :=
  k.kStr.Shows h key.kStr.val ∧ k.homeNode = key.homeNode

theorem Shows.keeps {h h' : Cells} {k : KeyObj} {key : Key} {b : Nat} (hk : Shows h k key)
    (hb : k.kStr.cstr ≠ some b) (hkeeps : KeepsBut b h h') : Shows h' k key :=
  ⟨hk.1.keeps hb hkeeps, hk.2⟩

end KeyObj

/-! ### Key buffers -/

structure KeyBuffObj where
  orig : KeyObj
  buf : StrBuffObj
  deriving DecidableEq, Repr

inductive Piece
  | str (s : CStr)
  | num (v : SizeT)
  deriving DecidableEq

def Piece.text : Piece → Str
  | .str s => s.val
  | .num v => decimal v.toNat

theorem Piece.nulFree_text (p : Piece) : NulFree p.text := by
  cases p with
  | str s => exact s.2
  | num v => exact decimal_nulFree _

def StrBuffObj.cPiece (mem : Junk UInt8) (b : StrBuffObj) (h : Cells) :
    Piece → Option (StrBuffObj × Cells)
  | .str s => b.c mem s.val h
  | .num v => b.cNum mem v.toNat h

theorem StrBuffObj.cPiece_eq (mem : Junk UInt8) (b : StrBuffObj) (h : Cells) (piece : Piece) :
    b.cPiece mem h piece = b.cBytes mem piece.text h := by
  cases piece with
  | str s => exact congrArg (b.cBytes mem · h) (cstr_of_nulFree s.2)
  | num v => exact congrArg (b.cBytes mem · h) (cstr_of_nulFree (decimal_nulFree _))

namespace KeyBuffObj

def new (mem : Junk UInt8) (orig : KeyObj) (h : Cells) : Option (KeyBuffObj × Cells) := do
  let (orig', h) ← orig.clone mem h
  let (buf, h) ← StrBuffObj.ofString mem orig.kStr h
  some (⟨orig', buf⟩, h)

/-- `c(String&)`, `c(const char*)` and `c(size_t)` -/
def c (mem : Junk UInt8) (piece : Piece) (b : KeyBuffObj) (h : Cells) :
    Option (KeyBuffObj × Cells) := do
  let (buf, h) ← b.buf.cPiece mem h piece
  some ({ b with buf }, h)

def get (mem : Junk UInt8) (b : KeyBuffObj) (h : Cells) : Option (KeyObj × KeyBuffObj × Cells) := do
  let (s, buf, h) ← b.buf.get mem h
  let orig ← b.orig.kStr.cstr
  let (buf, h) ← buf.cAt mem orig h
  let (stolen, s) := s.steal
  let chars ← stolen
  let (k, h) ← KeyObj.ofCStr mem chars b.orig.homeNode h
  let h ← s.delete h
  some (k, { b with buf }, h)

/-- The buffer `kb` of `Store/KeyBuff.lean`, with its arrays apart. -/
structure Shows (h : Cells) (b : KeyBuffObj) (kb : KeyBuff) : Prop where
  orig : b.orig.Shows h kb.orig
  buf : b.buf.Shows h kb.buf
  apart : b.orig.kStr.cstr ≠ some b.buf.val

theorem new_spec (mem : Junk UInt8) {h : Cells} {orig : KeyObj} {key : Key}
    (hk : orig.Shows h key) : ∃ b h' kb, new mem orig h = some (b, h') ∧
      KeyBuff.new key = some kb ∧ b.Shows h' kb ∧ h.get b.buf.val = none ∧ Keeps h h' := by
  obtain ⟨h₁, hclone, hs₁, hk₁⟩ := StringObj.clone_spec mem hk.1
  have horig : orig.kStr.Shows h₁ key.kStr.val := by
    obtain ⟨hsize, a, junk, hcstr, hget⟩ := hk.1
    exact ⟨hsize, a, junk, hcstr, hk₁ a _ hget⟩
  obtain ⟨buf, h', sb, hbuf, hsb, hs', hfresh, hk'⟩ :=
    StrBuffObj.ofString_spec mem horig key.kStr.2
  obtain ⟨hsize, a, junk, hcstr, hget⟩ := hs₁
  have hapart : (⟨some h.length, orig.kStr.size⟩ : StringObj).cstr ≠ some buf.val := by
    intro heq
    rw [hcstr] at heq
    rw [← Option.some.inj heq, hget] at hfresh
    cases hfresh
  refine ⟨⟨⟨⟨some h.length, orig.kStr.size⟩, orig.homeNode⟩, buf⟩, h', ⟨key, sb⟩, ?_, ?_,
    ⟨⟨⟨hsize, a, junk, hcstr, hk' a _ hget⟩, hk.2⟩, hs', hapart⟩, ?_, fun a cells ha =>
      hk' a cells (hk₁ a cells ha)⟩
  · rw [new, KeyObj.clone, hclone]
    show (StrBuffObj.ofString mem orig.kStr h₁).bind _ = _
    rw [hbuf]
    rfl
  · rw [KeyBuff.new, hsb]
    rfl
  · cases hb : h.get buf.val with
    | none => rfl
    | some cells =>
      rw [hk₁ _ _ hb] at hfresh
      cases hfresh

theorem Shows.apart_moved {h h' : Cells} {b : KeyBuffObj} {kb : KeyBuff} (hs : b.Shows h kb)
    {buf : StrBuffObj} (hm : StrBuffObj.Moved h b.buf h' buf) :
    b.orig.kStr.cstr ≠ some buf.val := by
  obtain ⟨-, a, junk, hcstr, ha⟩ := hs.orig.1
  have hapart := hs.apart
  rw [hcstr] at hapart ⊢
  exact fun heq => hm.ne ha (fun hc => hapart (congrArg some hc)) (Option.some.inj heq)

theorem c_spec (mem : Junk UInt8) {h : Cells} {b : KeyBuffObj} {kb : KeyBuff} (hs : b.Shows h kb)
    (hfits : kb.buf.Fits) (piece : Piece) :
    ∃ b' h' buf, b.c mem piece h = some (b', h') ∧ b'.Shows h' { kb with buf } ∧ buf.Fits ∧
      buf.val = kb.buf.val ++ piece.text ∧ StrBuffObj.Moved h b.buf h' b'.buf := by
  obtain ⟨buf', h', sb', hc, hc', hs', hm⟩ :=
    StrBuffObj.cBytes_spec mem hs.buf hfits piece.text
  obtain ⟨sb, hsb, hsfits, hval⟩ := StrBuff.cBytes_spec hfits piece.text
  obtain rfl : sb' = sb := Option.some.inj (hc'.symm.trans hsb)
  refine ⟨{ b with buf := buf' }, h', sb', ?_,
    ⟨hs.orig.keeps hs.apart hm.keeps, hs', hs.apart_moved hm⟩, hsfits, hval, hm⟩
  rw [c, StrBuffObj.cPiece_eq, hc]
  rfl

/-- **`get` makes the key that the buffer shown makes**, in an array of its own. -/
theorem get_spec (mem : Junk UInt8) {h : Cells} {b : KeyBuffObj} {kb : KeyBuff}
    (hs : b.Shows h kb) (hfits : kb.buf.Fits) (hwritten : kb.orig.kStr.val <+: kb.buf.val)
    (hnul : NulFree kb.buf.val) :
    ∃ k b' h' buf, b.get mem h = some (k, b', h') ∧
      kb.get = some (⟨⟨kb.buf.val, hnul⟩, kb.orig.homeNode⟩, { kb with buf }) ∧
      b'.Shows h' { kb with buf } ∧ buf.Fits ∧ buf.val = kb.orig.kStr.val ∧
      k.Shows h' ⟨⟨kb.buf.val, hnul⟩, kb.orig.homeNode⟩ ∧ k.kStr.cstr ≠ some b'.buf.val ∧
      StrBuffObj.Moved h b.buf h' b'.buf := by
  obtain ⟨buf₁, h₁, sb₁, junk, hget, hget', hs₁, hm, harray, hlen, hzero⟩ :=
    StrBuffObj.get_spec mem hs.buf hfits
  obtain ⟨sb₁', hget'', hfits₁, hval₁⟩ := StrBuff.get_spec hfits
  obtain ⟨-, rfl⟩ := Prod.mk.inj (Option.some.inj (hget''.symm.trans hget'))
  have hne := hs.apart_moved hm
  have horig := hs.orig.keeps hs.apart hm.keeps
  obtain ⟨⟨hsize, a, junk', hcstr, ha⟩, hnode⟩ := horig
  -- the text of the original key is written over itself
  have hroom : kb.orig.kStr.val.length < buf₁.capacity := by
    have hle := hwritten.length_le
    rw [← hlen, List.length_append, List.length_cons]
    omega
  have hc := StrBuffObj.cAt_same mem harray hlen hzero ha kb.orig.kStr.2 hroom
    (hwritten.trans (List.prefix_append _ _))
  obtain ⟨buf₂, h₂, sb₂, hc₂, hc₂', hs₂, -⟩ :=
    StrBuffObj.cAt_spec mem hs₁ hfits₁ ha kb.orig.kStr.2 (by
      rintro rfl
      exact hne hcstr)
  obtain ⟨rfl, rfl⟩ := Prod.mk.inj (Option.some.inj (hc₂.symm.trans hc))
  obtain ⟨sb₂', hc₂'', hfits₂, hval₂⟩ := StrBuff.c_spec hfits₁ kb.orig.kStr.val
  obtain rfl : sb₂ = sb₂' := Option.some.inj (hc₂'.symm.trans hc₂'')
  rw [hval₁, List.nil_append, cstr_of_nulFree kb.orig.kStr.2] at hval₂
  -- the key is copied out of the shared array
  obtain ⟨h₃, hkey, hshows, hkeeps⟩ := StringObj.ofCStr_spec mem harray hnul
  have hnew : h₂.length ≠ buf₁.val := by
    intro heq
    rw [← heq, get_length] at harray
    cases harray
  refine ⟨⟨⟨some h₂.length, kb.buf.val.length⟩, b.orig.homeNode⟩,
    ⟨b.orig, { buf₁ with size := kb.orig.kStr.val.length }⟩, h₃, sb₂, ?_, ?_,
    ⟨⟨⟨hsize, a, junk', hcstr, hkeeps a _ ha⟩, hnode⟩, ?_, hne⟩, hfits₂, hval₂,
    ⟨hshows, hs.orig.2⟩, ?_, ⟨?_, hm.val⟩⟩
  · rw [get, hget]
    show (b.orig.kStr.cstr).bind _ = _
    rw [hcstr, Option.bind_some]
    show (buf₁.cAt mem a h₂).bind _ = _
    rw [hc, Option.bind_some]
    show (KeyObj.ofCStr mem buf₁.val b.orig.homeNode h₂).bind _ = _
    rw [KeyObj.ofCStr, hkey]
    rfl
  · rw [KeyBuff.get, hget'', Option.bind_eq_bind, Option.bind_some]
    show (StrBuff.c kb.orig.kStr.val sb₁').bind _ = _
    rw [hc₂', Option.bind_some]
    show (if h : NulFree (cstr kb.buf.val) then _ else _) = _
    simp only [cstr_of_nulFree hnul]
    exact dif_pos hnul
  · obtain ⟨hcap, hsize₂, cells, hcells, hrest⟩ := hs₂
    exact ⟨hcap, hsize₂, cells, hkeeps _ _ hcells, hrest⟩
  · intro heq
    exact hnew (Option.some.inj heq)
  · exact hm.keeps.trans hm.val (hkeeps.but _)

/-! ### Rounds -/

/-- A call of the buffer. -/
inductive Call
  | c (piece : Piece)
  | get
  deriving DecidableEq

/-- The heap, the buffer and the keys it has returned. -/
structure Rounds where
  heap : Cells
  kbuf : KeyBuffObj
  keys : List KeyObj

def call (mem : Junk UInt8) (st : Rounds) : Call → Option Rounds
  | .c piece => do
    let (kbuf, heap) ← st.kbuf.c mem piece st.heap
    some { st with heap, kbuf }
  | .get => do
    let (k, kbuf, heap) ← st.kbuf.get mem st.heap
    some ⟨heap, kbuf, st.keys ++ [k]⟩

def run (mem : Junk UInt8) (calls : List Call) (st : Rounds) : Option Rounds :=
  calls.foldlM (call mem) st

/-- A buffer of `orig` that is called. -/
def session (mem : Junk UInt8) (orig : KeyObj) (calls : List Call) (h : Cells) :
    Option Rounds := do
  let (kbuf, heap) ← new mem orig h
  run mem calls ⟨heap, kbuf, []⟩

def keyOf (orig : Key) (pieces : List Piece) : Key where
  kStr := ⟨orig.kStr.val ++ pieces.flatMap Piece.text, by
    refine nulFree_append orig.kStr.2 fun h => ?_
    obtain ⟨piece, -, h⟩ := List.mem_flatMap.mp h
    exact piece.nulFree_text h⟩
  homeNode := orig.homeNode

/-- The keys that the calls return, some pieces being appended before them. -/
def keysOf (orig : Key) : List Piece → List Call → List Key
  | _, [] => []
  | pieces, .c piece :: calls => keysOf orig (pieces ++ [piece]) calls
  | pieces, .get :: calls => keyOf orig pieces :: keysOf orig [] calls

/-- Between two calls: the pieces since the last key, and the keys so far. -/
structure Building (st : Rounds) (orig : Key) (pieces : List Piece) (keys : List Key) : Prop where
  kbuf : ∃ buf, st.kbuf.Shows st.heap ⟨orig, buf⟩ ∧ buf.Fits ∧
    buf.val = (keyOf orig pieces).kStr.val
  keys : List.Forall₂ (fun k key => k.Shows st.heap key ∧ k.kStr.cstr ≠ some st.kbuf.buf.val)
    st.keys keys

/-- A key that was returned stays when the buffer moves. -/
theorem Building.keys_moved {st : Rounds} {orig : Key} {pieces : List Piece} {keys : List Key}
    (h : Building st orig pieces keys) {h' : Cells} {b' : StrBuffObj}
    (hm : StrBuffObj.Moved st.heap st.kbuf.buf h' b') :
    List.Forall₂ (fun k key => k.Shows h' key ∧ k.kStr.cstr ≠ some b'.val) st.keys keys := by
  refine h.keys.imp fun k key hk => ⟨hk.1.keeps hk.2 hm.keeps, fun heq => ?_⟩
  obtain ⟨⟨⟨-, a, junk, hcstr, hget⟩, -⟩, hne⟩ := hk
  rcases hm.val with hval | hval
  · exact hne (by rw [heq, hval])
  · rw [hcstr] at heq
    rw [← Option.some.inj heq, hget] at hval
    cases hval

theorem Building.c {st : Rounds} {orig : Key} {pieces : List Piece} {keys : List Key}
    (h : Building st orig pieces keys) (mem : Junk UInt8) (piece : Piece) :
    ∃ st', call mem st (.c piece) = some st' ∧ Building st' orig (pieces ++ [piece]) keys ∧
      st'.keys = st.keys := by
  obtain ⟨buf, hs, hfits, hval⟩ := h.kbuf
  obtain ⟨kbuf, heap, buf', hc, hs', hfits', hval', hm⟩ := c_spec mem hs hfits piece
  refine ⟨⟨heap, kbuf, st.keys⟩, ?_, ⟨⟨buf', hs', hfits', ?_⟩, h.keys_moved hm⟩, rfl⟩
  · show (st.kbuf.c mem piece st.heap).bind _ = _
    rw [hc]
    rfl
  · rw [hval']
    show buf.val ++ piece.text = orig.kStr.val ++ (pieces ++ [piece]).flatMap Piece.text
    rw [hval, List.flatMap_append, List.flatMap_singleton, ← List.append_assoc]
    rfl

theorem Building.get {st : Rounds} {orig : Key} {pieces : List Piece} {keys : List Key}
    (h : Building st orig pieces keys) (mem : Junk UInt8) :
    ∃ st' k, call mem st .get = some st' ∧
      Building st' orig [] (keys ++ [keyOf orig pieces]) ∧ st'.keys = st.keys ++ [k] := by
  obtain ⟨buf, hs, hfits, hval⟩ := h.kbuf
  have hnul : NulFree buf.val := hval ▸ (keyOf orig pieces).kStr.2
  obtain ⟨k, kbuf, heap, buf', hget, -, hs', hfits', hval', hk, hne, hm⟩ :=
    get_spec mem hs hfits (hval ▸ List.prefix_append _ _) hnul
  have hkey : (⟨⟨buf.val, hnul⟩, orig.homeNode⟩ : Key) = keyOf orig pieces := by
    rw [Key.mk.injEq]
    exact ⟨Subtype.ext hval, rfl⟩
  refine ⟨⟨heap, kbuf, st.keys ++ [k]⟩, k, ?_, ⟨⟨buf', hs', hfits', ?_⟩, ?_⟩, rfl⟩
  · show (st.kbuf.get mem st.heap).bind _ = _
    rw [hget]
    rfl
  · rw [hval']
    exact (List.append_nil _).symm
  · refine List.rel_append (h.keys_moved hm) (.cons ⟨?_, hne⟩ .nil)
    rw [← hkey]
    exact hk

/-- **What a run of calls returns.** -/
theorem Building.run {st : Rounds} {orig : Key} {pieces : List Piece} {keys : List Key}
    (h : Building st orig pieces keys) (mem : Junk UInt8) (calls : List Call) :
    ∃ st' later pieces', run mem calls st = some st' ∧
      Building st' orig pieces' (keys ++ keysOf orig pieces calls) ∧
      st'.keys = st.keys ++ later := by
  induction calls generalizing st pieces keys with
  | nil => exact ⟨st, [], pieces, rfl, by rwa [keysOf, List.append_nil], (List.append_nil _).symm⟩
  | cons c calls ih =>
    cases c with
    | c piece =>
      obtain ⟨st₁, hcall, h₁, hkeys₁⟩ := h.c mem piece
      obtain ⟨st', later, pieces', hrun, h', hkeys'⟩ := ih h₁
      refine ⟨st', later, pieces', ?_, h', by rw [hkeys', hkeys₁]⟩
      rw [KeyBuffObj.run, List.foldlM_cons, hcall]
      exact hrun
    | get =>
      obtain ⟨st₁, k, hcall, h₁, hkeys₁⟩ := h.get mem
      obtain ⟨st', later, pieces', hrun, h', hkeys'⟩ := ih h₁
      refine ⟨st', k :: later, pieces', ?_, ?_, ?_⟩
      · rw [KeyBuffObj.run, List.foldlM_cons, hcall]
        exact hrun
      · rw [keysOf, ← List.singleton_append, ← List.append_assoc]
        exact h'
      · rw [hkeys', hkeys₁, List.append_assoc]
        rfl

theorem building_new (mem : Junk UInt8) {h : Cells} {orig : KeyObj} {key : Key}
    (hk : orig.Shows h key) : ∃ kbuf heap, new mem orig h = some (kbuf, heap) ∧
      Building ⟨heap, kbuf, []⟩ key [] [] := by
  obtain ⟨kbuf, heap, kb, hnew, hnew', hs, -, -⟩ := new_spec mem hk
  obtain ⟨kb', hkb', hready⟩ := KeyBuff.ready_new key
  obtain rfl : kb = kb' := Option.some.inj (hnew'.symm.trans hkb')
  obtain ⟨orig', buf⟩ := kb
  obtain rfl : orig' = key := hready.orig_eq
  refine ⟨kbuf, heap, hnew, ⟨buf, hs, hready.fits, ?_⟩, .nil⟩
  exact hready.val_eq.trans (List.append_nil _).symm

/-- **Every key is the original text and the pieces since the last one, and stays so**
whatever is appended and built behind it. -/
theorem keys_built (mem : Junk UInt8) {h : Cells} {orig : KeyObj} {key : Key}
    (hk : orig.Shows h key) (calls more : List Call) :
    ∃ st st' later, session mem orig calls h = some st ∧ run mem more st = some st' ∧
      List.Forall₂ (KeyObj.Shows st.heap) st.keys (keysOf key [] calls) ∧
      st'.keys = st.keys ++ later ∧
      List.Forall₂ (KeyObj.Shows st'.heap) st.keys (keysOf key [] calls) := by
  obtain ⟨kbuf, heap, hnew, hstart⟩ := building_new mem hk
  obtain ⟨st, keys, pieces, hrun, hst, hkeys⟩ := hstart.run mem calls
  obtain ⟨st', later, pieces', hrun', hst', hkeys'⟩ := hst.run mem more
  rw [List.nil_append] at hst hst'
  have hsplit := hst'.keys
  rw [hkeys'] at hsplit
  have htake := List.forall₂_take_append _ _ _ hsplit
  rw [← hst.keys.length_eq, List.take_left] at htake
  refine ⟨st, st', later, ?_, hrun', hst.keys.imp fun _ _ hk => hk.1, hkeys',
    htake.imp fun _ _ hk => hk.1⟩
  rw [session, hnew]
  exact hrun

def keyA : Key := ⟨⟨[97], CStr.nulFree_a⟩, 3⟩

example : (keyOf keyA [.num 7, .str ⟨[98], CStr.nulFree_b⟩]).kStr.val = [97, 55, 98] := by decide

/-- A number, a key, a key, and a string behind them. -/
theorem keys_built_two : ∃ st st' later,
    session (fun _ n => Vector.replicate n 255) ⟨⟨some 0, 1⟩, 3⟩ [.c (.num 7), .get, .get]
      [some [97, 0]] = some st ∧
    run (fun _ n => Vector.replicate n 255) [.c (.str ⟨[98], CStr.nulFree_b⟩), .get] st = some st' ∧
    List.Forall₂ (KeyObj.Shows st.heap) st.keys [keyOf keyA [.num 7], keyOf keyA []] ∧
    st'.keys = st.keys ++ later ∧
    List.Forall₂ (KeyObj.Shows st'.heap) st.keys [keyOf keyA [.num 7], keyOf keyA []] := by
  have hk : KeyObj.Shows [some [97, 0]] ⟨⟨some 0, 1⟩, 3⟩ keyA :=
    ⟨⟨rfl, 0, [], rfl, rfl⟩, rfl⟩
  exact keys_built _ hk [.c (.num 7), .get, .get] [.c (.str ⟨[98], CStr.nulFree_b⟩), .get]

end KeyBuffObj

end Eau2
