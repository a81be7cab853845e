import Eau2.Base.Memory
import Eau2.Utils.Arguments

/-!
# Reading words through a buffer

`filereader/filereader.h`.  The buffer has `BUFSIZE + 1` cells of which the first `end_`
are filled; a read behind them, a write behind the cells, a failed assertion and too
little fuel are `none`.  `fread` meets the end of the file when it gets less than it asks
for.  `memcpy` is not for areas that overlap; `moves` says that it copies them like
`memmove` all the same.

* `Window`: what the buffer holds is the front of some rest of the file.
* `Windows`: every refill finds more of the file, and keeps the word that it cuts.
* `skipWhitespace_inv`, `exists_skipWhitespace`: `skipWhitespace_` from window to window.
-/

namespace Eau2

structure FileReader where
  /-- All `BUFSIZE + 1` cells. -/
  buf : List UInt8
  end_ : Nat
  i : Nat
  /-- What `fread` has not returned yet. -/
  unread : Str
  /-- `feof` -/
  eof : Bool
  deriving DecidableEq, Repr

namespace FileReader

def BUFSIZE : Nat := 1024

variable (moves : Bool)

def memcpy (buf : List UInt8) (i n : Nat) : Option (List UInt8) :=
  if n ≤ i ∨ moves then do
    let bytes ← slice buf i n
    blit buf 0 bytes
  else none

/-- The first half of `fillBuffer_`: what is left goes to the front. -/
def compact (r : FileReader) : Option (List UInt8) :=
  if r.i ≠ r.end_ then memcpy moves r.buf r.i (r.end_ - r.i) else some r.buf

/-- `fillBuffer_`; with `i_` behind `end_` the length to keep would wrap around. -/
def fillBuffer_ (r : FileReader) : Option FileReader :=
  if r.end_ < r.i then none
  else do
    let start := r.end_ - r.i
    let buf ← r.compact moves
    let got := r.unread.take (BUFSIZE - start)
    let buf ← blit buf start got
    some ⟨buf, start + got.length, start, r.unread.drop (BUFSIZE - start),
      r.eof || decide (got.length < BUFSIZE - start)⟩

def cur (r : FileReader) : Option UInt8 := if r.i < r.end_ then r.buf[r.i]? else none

def refill (r : FileReader) : Option FileReader :=
  if r.i = r.end_ then r.fillBuffer_ moves else some r

def skipWhitespace_ : Nat → FileReader → Option FileReader
  | 0, _ => none
  | fuel + 1, r =>
    if r.i = r.end_ ∧ r.eof then some r
    else do
      let r ← r.refill moves
      let c ← r.cur
      if isspace c then skipWhitespace_ fuel { r with i := r.i + 1 } else some r

/-- `FileReader()`, on a file and with what `new char[BUFSIZE + 1]` finds. -/
def new (junk : Vector UInt8 (BUFSIZE + 1)) (fuel : Nat) (file : Str) : Option FileReader := do
  let r ← fillBuffer_ moves ⟨junk.toList, 0, 0, file, false⟩
  r.skipWhitespace_ moves fuel

/-- The refill in `visit`, which keeps the word from `wStart` on. -/
def refillWord (wStart : Nat) (r : FileReader) : Option (Nat × FileReader) :=
  if r.i = r.end_ then (fillBuffer_ moves { r with i := wStart }).map fun r => (0, r)
  else some (wStart, r)

/-- The loop of `visit`, with its `wStart`. -/
def readWord : Nat → Nat → FileReader → Option (Nat × FileReader)
  | 0, _, _ => none
  | fuel + 1, wStart, r =>
    if r.i = r.end_ ∧ r.eof then some (wStart, { r with i := r.i + 1 })
    else do
      let (wStart, r) ← r.refillWord moves wStart
      let c ← r.cur
      if isspace c then some (wStart, r) else readWord fuel wStart { r with i := r.i + 1 }

/-- `visit`, with its assertions: the word that goes into the row. -/
def visit (fuel : Nat) (r : FileReader) : Option (Str × FileReader) := do
  let c ← r.cur
  if isspace c then none
  else
    let (wStart, r) ← readWord moves fuel r.i r
    let buf ← blit r.buf r.i [0]
    -- `String(cstr, len)` copies `len + 1` characters
    let word ← slice (buf.take r.end_) wStart (r.i - wStart + 1)
    let next ← skipWhitespace_ moves fuel { r with buf := buf, i := r.i + 1 }
    some (word.take (r.i - wStart), next)

def done (r : FileReader) : Bool := r.end_ ≤ r.i && r.eof

/-- `DataFrame::visit` alternates `done` and `visit`. -/
def drive (fuel : Nat) : Nat → FileReader → Option (List Str)
  | 0, _ => none
  | n + 1, r =>
    if r.done then some []
    else do
      let (word, r) ← r.visit moves fuel
      let words ← drive fuel n r
      some (word :: words)

def readFile (junk : Vector UInt8 (BUFSIZE + 1)) (fuel : Nat) (file : Str) :
    Option (List Str) := do
  let r ← new moves junk fuel file
  drive moves fuel fuel r

/-! ### Windows of a file -/

/-- Where a word begins that the first `BUFSIZE` bytes cut. -/
def cut (w : Str) : Nat := ((w.take BUFSIZE).rdropWhile fun c => !isspace c).length

/-- The windows that begin with the rest `w` of the file: the last one is short, another one
does not end with the file, and the word that it cuts can be moved to the front. -/
inductive Windows : Str → Prop
  | last {w : Str} (h : w.length < BUFSIZE) : Windows w
  | next {w : Str} (h : BUFSIZE < w.length) (hcut : BUFSIZE / 2 ≤ cut w ∨ moves ∧ 0 < cut w)
      (hrest : Windows (w.drop (cut w))) : Windows w

/-- The last byte, if there is one, is whitespace. -/
def Ends (s : Str) : Prop := ∀ c, s.getLast? = some c → isspace c = true

variable {moves}

theorem windows_iff {w : Str} (h : BUFSIZE < w.length)
    (hcut : BUFSIZE / 2 ≤ cut w ∨ moves ∧ 0 < cut w) :
    Windows moves w ↔ Windows moves (w.drop (cut w)) := by
  refine ⟨fun hw => ?_, Windows.next h hcut⟩
  cases hw with
  | last hlt => exact absurd hlt (Nat.not_lt.mpr h.le)
  | next _ _ hrest => exact hrest

theorem ends_nil : Ends [] := fun c hc => by cases hc

theorem ends_concat {s : Str} {c : UInt8} : Ends (s ++ [c]) ↔ isspace c = true := by
  rw [Ends, List.getLast?_concat]
  exact ⟨fun h => h c rfl, fun h d hd => by cases hd; exact h⟩

/-- **A word that runs to the end of the window is the one that it cuts.** -/
theorem cut_eq {w : Str} {k : Nat} (hk : k ≤ BUFSIZE) (hw : BUFSIZE ≤ w.length)
    (hfresh : Ends (w.take k)) (hword : ∀ b ∈ (w.take BUFSIZE).drop k, isspace b = false) :
    cut w = k := by
  have hsplit : w.take BUFSIZE = w.take k ++ (w.take BUFSIZE).drop k := by
    conv_lhs => rw [← List.take_append_drop k (w.take BUFSIZE)]
    rw [List.take_take, Nat.min_eq_left hk]
  have hdrop : (w.take k).rdropWhile (fun c => !isspace c) = w.take k := by
    rcases List.eq_nil_or_concat (w.take k) with hnil | ⟨s, c, hc⟩
    · rw [hnil]
      rfl
    · rw [List.concat_eq_append] at hc
      rw [hc] at hfresh ⊢
      rw [List.rdropWhile_concat_neg _ _ _ (by rw [ends_concat.mp hfresh]; decide)]
  have hall : ∀ b ∈ ((w.take BUFSIZE).drop k).reverse, (!isspace b) = true := by
    intro b hb
    rw [hword b (List.mem_reverse.mp hb)]
    rfl
  rw [cut, hsplit, List.rdropWhile, List.reverse_append, List.dropWhile_append_of_pos hall,
    ← List.rdropWhile, hdrop]
  exact List.length_take_of_le (hk.trans hw)

/-! ### What the buffer holds -/

/-- The buffer holds the window that begins with the rest `w` of the file, the cells from `lo`
on as they were read, and what is behind the window is unread. -/
structure Window (r : FileReader) (w : Str) (lo : Nat) : Prop where
  size : r.buf.length = BUFSIZE + 1
  end_eq : r.end_ = min BUFSIZE w.length
  unread_eq : r.unread = w.drop BUFSIZE
  eof_iff : r.eof = true ↔ w.length < BUFSIZE
  lo_le : lo ≤ r.i
  i_le : r.i ≤ r.end_
  cells : ∀ j, lo ≤ j → j < r.end_ → r.buf[j]? = w[j]?

theorem Window.end_le {r : FileReader} {w : Str} {lo : Nat} (h : Window r w lo) :
    r.end_ ≤ BUFSIZE := by
  rw [h.end_eq]
  exact Nat.min_le_left _ _

theorem Window.end_le_length {r : FileReader} {w : Str} {lo : Nat} (h : Window r w lo) :
    r.end_ ≤ w.length := by
  rw [h.end_eq]
  exact Nat.min_le_right _ _

theorem Window.i_le_length {r : FileReader} {w : Str} {lo : Nat} (h : Window r w lo) :
    r.i ≤ w.length := h.i_le.trans h.end_le_length

theorem Window.full {r : FileReader} {w : Str} {lo : Nat} (h : Window r w lo) (hf : r.eof = false) :
    r.end_ = BUFSIZE ∧ BUFSIZE ≤ w.length := by
  have hle : BUFSIZE ≤ w.length := by
    refine Nat.not_lt.mp fun hlt => ?_
    rw [h.eof_iff.mpr hlt] at hf
    cases hf
  exact ⟨h.end_eq.trans (Nat.min_eq_left hle), hle⟩

theorem Window.drop_eq_nil {r : FileReader} {w : Str} {lo : Nat} (h : Window r w lo)
    (hi : r.i = r.end_) (hf : r.eof = true) : w.drop r.i = [] := by
  rw [hi, h.end_eq, Nat.min_eq_right (h.eof_iff.mp hf).le, List.drop_length]

theorem Window.cur_eq {r : FileReader} {w : Str} {lo : Nat} (h : Window r w lo) {c : UInt8} :
    r.cur = some c ↔ r.i < r.end_ ∧ w[r.i]? = some c := by
  rw [cur]
  by_cases hi : r.i < r.end_
  · rw [if_pos hi, h.cells r.i h.lo_le hi]
    exact ⟨fun hc => ⟨hi, hc⟩, fun hc => hc.2⟩
  · rw [if_neg hi]
    exact ⟨fun hc => (Option.some_ne_none c hc.symm).elim, fun hc => absurd hc.1 hi⟩

theorem Window.exists_cur {r : FileReader} {w : Str} {lo : Nat} (h : Window r w lo)
    (hlt : r.i < r.end_) : ∃ c, r.cur = some c := by
  have hlen := Nat.lt_of_lt_of_le hlt h.end_le_length
  exact ⟨w[r.i], h.cur_eq.mpr ⟨hlt, List.getElem?_eq_getElem hlen⟩⟩

theorem Window.drop_eq_cons {r : FileReader} {w : Str} {lo : Nat} (h : Window r w lo) {c : UInt8}
    (hc : r.cur = some c) : w.drop r.i = c :: w.drop (r.i + 1) := by
  obtain ⟨hlt, hget⟩ := List.getElem?_eq_some_iff.mp (h.cur_eq.mp hc).2
  rw [List.drop_eq_getElem_cons hlt, hget]

theorem Window.take_succ {r : FileReader} {w : Str} {lo : Nat} (h : Window r w lo) {c : UInt8}
    (hc : r.cur = some c) : w.take (r.i + 1) = w.take r.i ++ [c] := by
  rw [List.take_add_one, (h.cur_eq.mp hc).2]
  rfl

theorem Window.ends_succ {r : FileReader} {w : Str} {lo : Nat} (h : Window r w lo) {c : UInt8}
    (hc : r.cur = some c) (hspace : isspace c = true) : Ends (w.take (r.i + 1)) := by
  rw [h.take_succ hc]
  exact ends_concat.mpr hspace

theorem Window.succ {r : FileReader} {w : Str} {lo lo' : Nat} (h : Window r w lo) {c : UInt8}
    (hc : r.cur = some c) (hlo : lo ≤ lo') (hlo' : lo' ≤ r.i + 1) :
    Window { r with i := r.i + 1 } w lo' where
  size := h.size
  end_eq := h.end_eq
  unread_eq := h.unread_eq
  eof_iff := h.eof_iff
  lo_le := hlo'
  i_le := (h.cur_eq.mp hc).1
  cells j hj hlt := h.cells j (hlo.trans hj) hlt

/-! ### Refills -/

theorem compact_eq {r : FileReader} (hsize : r.buf.length = BUFSIZE + 1) (hle : r.i ≤ r.end_)
    (hend : r.end_ ≤ BUFSIZE) (hmove : r.i = r.end_ ∨ r.end_ - r.i ≤ r.i ∨ moves) :
    ∃ buf, r.compact moves = some buf ∧ buf.length = BUFSIZE + 1 ∧
      ∀ j < r.end_ - r.i, buf[j]? = r.buf[r.i + j]? := by
  by_cases hi : r.i = r.end_
  · refine ⟨r.buf, by rw [compact, if_neg (not_not.mpr hi)], hsize, fun j hj => ?_⟩
    omega
  · have hslice : slice r.buf r.i (r.end_ - r.i) = some _ := slice_of_le (by omega)
    have hlen : ((r.buf.drop r.i).take (r.end_ - r.i)).length = r.end_ - r.i := by
      rw [List.length_take, List.length_drop]
      omega
    obtain ⟨buf, hblit⟩ : ∃ buf, blit r.buf 0 ((r.buf.drop r.i).take (r.end_ - r.i)) = some buf :=
      exists_blit (by omega)
    refine ⟨buf, ?_, (length_blit hblit).trans hsize, fun j hj => ?_⟩
    · rw [compact, if_pos hi, memcpy, if_pos (hmove.resolve_left hi), hslice]
      exact hblit
    · rw [eq_of_blit hblit, List.take_zero, List.nil_append, List.getElem?_append_left (by omega),
        List.getElem?_take_of_lt hj, List.getElem?_drop]

theorem fillBuffer_eq (moves : Bool) {r : FileReader} (hsize : r.buf.length = BUFSIZE + 1)
    (hle : r.i ≤ r.end_) (hend : r.end_ ≤ BUFSIZE)
    (hmove : r.i = r.end_ ∨ r.end_ - r.i ≤ r.i ∨ moves) :
    ∃ r', fillBuffer_ moves r = some r' ∧ r'.buf.length = BUFSIZE + 1 ∧
      r'.end_ = r.end_ - r.i + min (BUFSIZE - (r.end_ - r.i)) r.unread.length ∧
      r'.i = r.end_ - r.i ∧ r'.unread = r.unread.drop (BUFSIZE - (r.end_ - r.i)) ∧
      (r'.eof = true ↔ r.eof = true ∨ r.unread.length < BUFSIZE - (r.end_ - r.i)) ∧
      (∀ j < r.end_ - r.i, r'.buf[j]? = r.buf[r.i + j]?) ∧
      ∀ j, r.end_ - r.i ≤ j → j < r'.end_ → r'.buf[j]? = r.unread[j - (r.end_ - r.i)]? := by
  obtain ⟨start, hstart⟩ : ∃ start, start = r.end_ - r.i := ⟨_, rfl⟩
  obtain ⟨buf, hbuf, hlen, hfront⟩ := compact_eq hsize hle hend hmove
  rw [← hstart] at hfront
  have hgot : (r.unread.take (BUFSIZE - start)).length = min (BUFSIZE - start) r.unread.length :=
    List.length_take
  have hblit : blit buf start (r.unread.take (BUFSIZE - start)) = some _ := blit_of_le (by omega)
  refine ⟨⟨_, start + (r.unread.take (BUFSIZE - start)).length, start,
    r.unread.drop (BUFSIZE - start),
    r.eof || decide ((r.unread.take (BUFSIZE - start)).length < BUFSIZE - start)⟩, ?_,
    (length_blit hblit).trans hlen, ?_, hstart, ?_, ?_, ?_, ?_⟩
  · rw [fillBuffer_, if_neg (Nat.not_lt.mpr hle), ← hstart, hbuf]
    show (blit buf start (r.unread.take (BUFSIZE - start))).bind _ = _
    rw [hblit]
    rfl
  · rw [← hstart, ← hgot]
  · rw [← hstart]
  · rw [Bool.or_eq_true, decide_eq_true_eq, hgot, ← hstart]
    refine or_congr Iff.rfl ?_
    omega
  · intro j hj
    rw [← hfront j (by omega), List.getElem?_append_left, List.getElem?_take_of_lt (by omega)]
    rw [List.length_take]
    omega
  · intro j hj hlt
    have hlt' : j < start + (r.unread.take (BUFSIZE - start)).length := hlt
    have htake : (buf.take start).length = start := List.length_take_of_le (by omega)
    rw [List.getElem?_append_right (by omega), htake, List.getElem?_append_left (by omega),
      List.getElem?_take_of_lt (by omega), hstart]

theorem fillBuffer_new (moves : Bool) (junk : Vector UInt8 (BUFSIZE + 1)) (file : Str) :
    ∃ r, fillBuffer_ moves ⟨junk.toList, 0, 0, file, false⟩ = some r ∧ Window r file 0 ∧
      r.i = 0 := by
  obtain ⟨r, hr, hlen, hend, hi, hunread, heof, -, hcells⟩ :=
    fillBuffer_eq moves (r := ⟨junk.toList, 0, 0, file, false⟩) Vector.length_toList
      le_rfl (Nat.zero_le _) (Or.inl rfl)
  simp only [Nat.sub_zero, Nat.zero_add] at hend hi hunread hcells
  simp only [Nat.sub_zero, Bool.false_eq_true, false_or] at heof
  exact ⟨r, hr, ⟨hlen, hend, hunread, heof, Nat.zero_le _, by rw [hi]; exact Nat.zero_le _, hcells⟩,
    hi⟩

/-- **A refill moves the window on to what is left of it.** -/
theorem Window.refill {r : FileReader} {w : Str} (h : Window r w r.i) (moves : Bool)
    (hf : r.eof = false) (hmove : BUFSIZE / 2 ≤ r.i ∨ moves) : ∃ r', fillBuffer_ moves r = some r' ∧
      Window r' (w.drop r.i) 0 ∧ r'.i = BUFSIZE - r.i := by
  obtain ⟨hfull, hw⟩ := h.full hf
  have hile := h.i_le
  have hhalf : BUFSIZE / 2 + BUFSIZE / 2 = BUFSIZE := rfl
  have hulen : r.unread.length = w.length - BUFSIZE := by rw [h.unread_eq, List.length_drop]
  obtain ⟨r', hr, hlen, hend, hi, hunread, heof, hfront, hback⟩ :=
    fillBuffer_eq moves h.size h.i_le h.end_le (by
      rcases hmove with hmove | hmove
      · exact Or.inr (Or.inl (by omega))
      · exact Or.inr (Or.inr hmove))
  have hwlen : (w.drop r.i).length = w.length - r.i := List.length_drop
  refine ⟨r', hr, ⟨hlen, ?_, ?_, ?_, Nat.zero_le _, by omega, ?_⟩, by rw [hi, hfull]⟩
  · omega
  · rw [hunread, h.unread_eq, List.drop_drop, List.drop_drop]
    congr 1
    omega
  · rw [heof, hf]
    simp only [Bool.false_eq_true, false_or]
    omega
  · intro j _ hj
    by_cases hfj : j < r.end_ - r.i
    · rw [hfront j hfj, h.cells (r.i + j) (Nat.le_add_right _ _) (by omega), List.getElem?_drop]
    · rw [hback j (Nat.not_lt.mp hfj) hj, h.unread_eq, List.getElem?_drop, List.getElem?_drop]
      congr 1
      omega

/-- A word from the first half of the buffer is not moved over itself. -/
theorem Window.refill_eq_none {r : FileReader} {w : Str} (h : Window r w r.i)
    (hf : r.eof = false) (hmove : ¬ (BUFSIZE / 2 ≤ r.i ∨ moves)) : fillBuffer_ moves r = none := by
  have hfull := (h.full hf).1
  have hi : ¬ BUFSIZE / 2 ≤ r.i := fun hc => hmove (Or.inl hc)
  have hhalf : BUFSIZE / 2 + BUFSIZE / 2 = BUFSIZE := rfl
  have hover : ¬ (r.end_ - r.i ≤ r.i ∨ moves) := by
    rintro (hle | hm)
    · omega
    · exact hmove (Or.inr hm)
  rw [fillBuffer_, if_neg (Nat.not_lt.mpr h.i_le), compact, if_pos (by omega), memcpy,
    if_neg hover]
  rfl

/-! ### Skipping whitespace -/

/-- The reader looks at a byte of a word, or there is nothing left. -/
def Stops (r : FileReader) : Prop := r.done = true ∨ ∃ c, r.cur = some c ∧ isspace c = false

theorem Window.done_iff {r : FileReader} {w : Str} {lo : Nat} (h : Window r w lo) :
    r.done = true ↔ r.i = r.end_ ∧ r.eof = true := by
  rw [done, Bool.and_eq_true, decide_eq_true_eq]
  exact and_congr_left fun _ => ⟨fun hle => Nat.le_antisymm h.i_le hle, Eq.ge⟩

theorem Window.eof_eq_false {r : FileReader} {w : Str} {lo : Nat} (h : Window r w lo)
    (hi : r.i = r.end_) (hd : ¬ r.done = true) : r.eof = false := by
  rw [h.done_iff] at hd
  cases he : r.eof with
  | false => rfl
  | true => exact absurd ⟨hi, he⟩ hd

/-- Between words, a refill begins the next window. -/
theorem Window.refill_spec {r : FileReader} {w : Str} (h : Window r w r.i) (moves : Bool)
    (hfresh : Ends (w.take r.i)) (hd : ¬ r.done = true) : ∃ r₁ w₁, r.refill moves = some r₁ ∧
      Window r₁ w₁ r₁.i ∧ Ends (w₁.take r₁.i) ∧ w₁.drop r₁.i = w.drop r.i ∧
      (r₁.i < r₁.end_ → (Windows moves w₁ ↔ Windows moves w)) ∧
      (Windows moves w → r₁.i < r₁.end_) := by
  by_cases hi : r.i = r.end_
  · have hf := h.eof_eq_false hi hd
    obtain ⟨hfull, hw⟩ := h.full hf
    rw [hfull] at hi
    obtain ⟨r₁, hr₁, h₁, hi₁⟩ := h.refill moves hf (Or.inl (by rw [hi]; decide))
    rw [hi, Nat.sub_self] at hi₁
    have hend : r₁.end_ = min BUFSIZE (w.length - BUFSIZE) := by
      rw [h₁.end_eq, List.length_drop, hi]
    refine ⟨r₁, w.drop r.i, ?_, ?_, ?_, ?_, fun hlt => ?_, fun hwin => ?_⟩
    · rwa [FileReader.refill, if_pos (hi.trans hfull.symm)]
    · rwa [hi₁]
    · rw [hi₁]
      exact ends_nil
    · rw [hi₁, List.drop_zero]
    · have hcut : cut w = r.i := by
        refine cut_eq (by rw [hi]) hw hfresh fun b hb => ?_
        rw [hi, List.drop_eq_nil_of_le (by rw [List.length_take]; omega)] at hb
        cases hb
      have hlong : BUFSIZE < w.length := by omega
      rw [← hcut]
      refine (windows_iff hlong (Or.inl ?_)).symm
      rw [hcut, hi]
      decide
    · cases hwin with
      | last hlt => exact absurd hw (Nat.not_le.mpr hlt)
      | next hlt _ _ =>
        have hpos : 0 < BUFSIZE := by decide
        omega
  · have hlt : r.i < r.end_ := Nat.lt_of_le_of_ne h.i_le hi
    exact ⟨r, w, by rw [FileReader.refill, if_neg hi], h, hfresh, rfl, fun _ => Iff.rfl,
      fun _ => hlt⟩

/-- **Whitespace is skipped**, through as many windows as it takes. -/
theorem skipWhitespace_inv {fuel : Nat} {r r' : FileReader} {w : Str} (h : Window r w r.i)
    (hfresh : Ends (w.take r.i)) (hskip : r.skipWhitespace_ moves fuel = some r') :
    ∃ w', Window r' w' r'.i ∧ Ends (w'.take r'.i) ∧ Stops r' ∧
      w'.drop r'.i = (w.drop r.i).dropWhile isspace ∧ (Windows moves w' ↔ Windows moves w) := by
  induction fuel generalizing r w with
  | zero => cases hskip
  | succ fuel ih =>
    rw [skipWhitespace_] at hskip
    by_cases hd : r.done = true
    · have hdone := h.done_iff.mp hd
      rw [if_pos hdone] at hskip
      cases hskip
      refine ⟨w, h, hfresh, Or.inl hd, ?_, Iff.rfl⟩
      rw [h.drop_eq_nil hdone.1 hdone.2]
      rfl
    · rw [if_neg (h.done_iff.not.mp hd)] at hskip
      obtain ⟨r₁, w₁, hr₁, h₁, hfresh₁, hdrop₁, hwin₁, -⟩ := h.refill_spec moves hfresh hd
      rw [hr₁, Option.bind_eq_bind, Option.bind_some] at hskip
      obtain ⟨c, hc, hskip⟩ := Option.bind_eq_some_iff.mp hskip
      have hlt := (h₁.cur_eq.mp hc).1
      rw [← hdrop₁, ← hwin₁ hlt, h₁.drop_eq_cons hc]
      split at hskip
      · rename_i hspace
        obtain ⟨w', h', hfresh', hstops, hdrop, hwin⟩ :=
          ih (h₁.succ hc (Nat.le_succ _) le_rfl) (h₁.ends_succ hc hspace) hskip
        rw [List.dropWhile_cons_of_pos hspace]
        exact ⟨w', h', hfresh', hstops, hdrop, hwin⟩
      · rename_i hspace
        cases hskip
        refine ⟨w₁, h₁, hfresh₁, Or.inr ⟨c, hc, Bool.eq_false_iff.mpr hspace⟩, ?_, Iff.rfl⟩
        rw [List.dropWhile_cons_of_neg hspace, h₁.drop_eq_cons hc]

/-- **Nothing goes wrong while the windows are right.** -/
theorem exists_skipWhitespace {fuel : Nat} {r : FileReader} {w : Str} (h : Window r w r.i)
    (hfresh : Ends (w.take r.i)) (hwin : Windows moves w) (hfuel : (w.drop r.i).length < fuel) :
    ∃ r', r.skipWhitespace_ moves fuel = some r' := by
  induction fuel generalizing r w with
  | zero => exact absurd hfuel (Nat.not_lt_zero _)
  | succ fuel ih =>
    rw [skipWhitespace_]
    by_cases hd : r.done = true
    · rw [if_pos (h.done_iff.mp hd)]
      exact ⟨r, rfl⟩
    · rw [if_neg (h.done_iff.not.mp hd)]
      obtain ⟨r₁, w₁, hr₁, h₁, hfresh₁, hdrop₁, hwin₁, hlt⟩ :=
        h.refill_spec moves hfresh hd
      have hlt₁ := hlt hwin
      obtain ⟨c, hc⟩ := h₁.exists_cur hlt₁
      rw [hr₁, Option.bind_eq_bind, Option.bind_some, hc, Option.bind_eq_bind, Option.bind_some]
      split
      · rename_i hspace
        refine ih (h₁.succ hc (Nat.le_succ _) le_rfl) (h₁.ends_succ hc hspace)
          ((hwin₁ hlt₁).mpr hwin) ?_
        rw [← hdrop₁, h₁.drop_eq_cons hc, List.length_cons] at hfuel
        exact Nat.lt_of_succ_lt_succ hfuel
      · exact ⟨r₁, rfl⟩

end FileReader

end Eau2
