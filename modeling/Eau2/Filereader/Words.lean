import Eau2.Filereader.FileReader

/-!
# The words of a file

What `FileReader` emits, against the pieces of the file between its whitespace (`words`).

* `readWord_inv`, `visit_inv`: a `visit` that returns has read the next word.
* `drive_inv`, `exists_drive`: so have all of them, exactly when the windows are right and
  the file ends with whitespace.
* `readFile_iff`: **a reader emits the words of a file exactly when it is such**.
-/

namespace Eau2

/-- The maximal runs of bytes that are no whitespace. -/
def words (s : Str) : List Str := (s.splitOnP isspace).filter (· ≠ [])

theorem words_cons_space {c : UInt8} (h : isspace c = true) (s : Str) :
    words (c :: s) = words s := by
  rw [words, List.splitOnP_cons_eq_if_modifyHead, if_pos h]
  rfl

theorem words_dropWhile (s : Str) : words (s.dropWhile isspace) = words s := by
  induction s with
  | nil => rfl
  | cons c s ih =>
    by_cases hc : isspace c = true
    · rw [List.dropWhile_cons_of_pos hc, ih, words_cons_space hc]
    · rw [List.dropWhile_cons_of_neg hc]

/-- **A word and what is behind it.** -/
theorem words_append {word : Str} (hne : word ≠ []) (hword : ∀ b ∈ word, isspace b = false)
    {c : UInt8} (hc : isspace c = true) (s : Str) : words (word ++ c :: s) = word :: words s := by
  rw [words, List.splitOnP_append_cons_of_forall_mem hword c hc,
    List.filter_cons_of_pos (by simpa using hne)]
  rfl

namespace FileReader

variable {moves : Bool}

theorem ends_append {s t : Str} {c : UInt8} (hc : isspace c = true) :
    Ends (s ++ c :: t) ↔ Ends t := by
  rcases List.eq_nil_or_concat t with rfl | ⟨t, d, rfl⟩
  · exact iff_of_true (ends_concat.mpr hc) ends_nil
  · rw [List.concat_eq_append, ← List.cons_append, ← List.append_assoc, ends_concat, ends_concat]

theorem ends_dropWhile {s : Str} : Ends (s.dropWhile isspace) ↔ Ends s := by
  induction s with
  | nil => exact Iff.rfl
  | cons c s ih =>
    by_cases hc : isspace c = true
    · rw [List.dropWhile_cons_of_pos hc, ih]
      exact (ends_append (s := []) hc).symm
    · rw [List.dropWhile_cons_of_neg hc]

/-! ### One word -/

/-- No byte between `lo` and `k` is whitespace. -/
def Solid (w : Str) (lo k : Nat) : Prop := ∀ b ∈ (w.take k).drop lo, isspace b = false

theorem solid_self (w : Str) (k : Nat) : Solid w k k := by
  intro b hb
  rw [List.drop_eq_nil_of_le (List.length_take_le k w)] at hb
  cases hb

theorem Window.solid_succ {r : FileReader} {w : Str} {lo : Nat} (h : Window r w lo)
    (hsolid : Solid w lo r.i) {c : UInt8} (hc : r.cur = some c) (hspace : isspace c = false) :
    Solid w lo (r.i + 1) := by
  intro b hb
  have hlen : lo ≤ (w.take r.i).length := by
    rw [List.length_take_of_le h.i_le_length]
    exact h.lo_le
  rw [h.take_succ hc, List.drop_append_of_le_length hlen] at hb
  rcases List.mem_append.mp hb with hb | hb
  · exact hsolid b hb
  · rwa [List.mem_singleton.mp hb]

theorem Window.back {r : FileReader} {w : Str} {lo : Nat} (h : Window r w lo) :
    Window { r with i := lo } w lo :=
  ⟨h.size, h.end_eq, h.unread_eq, h.eof_iff, le_rfl, h.lo_le.trans h.i_le, h.cells⟩

/-- A word that no whitespace has followed in the window is the one that the window cuts. -/
theorem Window.cut_eq {r : FileReader} {w : Str} {lo : Nat} (h : Window r w lo)
    (hi : r.i = r.end_) (hf : r.eof = false) (hfresh : Ends (w.take lo))
    (hsolid : Solid w lo r.i) : cut w = lo := by
  obtain ⟨hfull, hw⟩ := h.full hf
  have hlo : lo ≤ BUFSIZE := by
    rw [← hfull, ← hi]
    exact h.lo_le
  refine FileReader.cut_eq hlo hw hfresh ?_
  rw [← hfull, ← hi]
  exact hsolid

theorem Window.refill_back {r : FileReader} {w : Str} {lo : Nat} (h : Window r w lo)
    (hf : r.eof = false) (hmove : BUFSIZE / 2 ≤ lo ∨ moves) :
    ∃ r₁, fillBuffer_ moves { r with i := lo } = some r₁ ∧ Window r₁ (w.drop lo) 0 ∧
      r₁.i = BUFSIZE - lo ∧ r₁.end_ = min BUFSIZE (w.length - lo) := by
  obtain ⟨r₁, hr₁, h₁, hi₁⟩ := h.back.refill moves hf hmove
  refine ⟨r₁, hr₁, h₁, hi₁, ?_⟩
  rw [h₁.end_eq, List.length_drop]

theorem Window.refillWord_spec {r : FileReader} {w : Str} {lo : Nat} (h : Window r w lo)
    (hfresh : Ends (w.take lo)) (hsolid : Solid w lo r.i) (hd : ¬ r.done = true) {lo₁ : Nat}
    {r₁ : FileReader} (hr : r.refillWord moves lo = some (lo₁, r₁)) : ∃ w₁, Window r₁ w₁ lo₁ ∧
      Ends (w₁.take lo₁) ∧ Solid w₁ lo₁ r₁.i ∧ w₁.drop lo₁ = w.drop lo ∧
      w₁.drop r₁.i = w.drop r.i ∧
      (r₁.i < r₁.end_ → (Windows moves w₁ ↔ Windows moves w)) := by
  rw [refillWord] at hr
  by_cases hi : r.i = r.end_
  · rw [if_pos hi] at hr
    obtain ⟨r', hr', heq⟩ := Option.map_eq_some_iff.mp hr
    cases heq
    have hf := h.eof_eq_false hi hd
    have hcut := h.cut_eq hi hf hfresh hsolid
    obtain ⟨hfull, hw⟩ := h.full hf
    have hlo := h.lo_le
    by_cases hmove : BUFSIZE / 2 ≤ lo ∨ moves
    · obtain ⟨r₂, hr₂, h₂, hi₂, hend⟩ := h.refill_back hf hmove
      obtain rfl : r₂ = r₁ := Option.some.inj (hr₂.symm.trans hr')
      refine ⟨w.drop lo, h₂, ends_nil, ?_, List.drop_zero, ?_, fun hlt => ?_⟩
      · intro b hb
        rw [List.drop_zero, hi₂, ← hfull, ← hi, List.take_drop] at hb
        refine hsolid b ?_
        rwa [Nat.add_sub_of_le hlo] at hb
      · rw [List.drop_drop, hi₂, hi, hfull]
        congr 1
        omega
      · have hlong : BUFSIZE < w.length := by omega
        have hpos : 0 < lo := by omega
        have hmove' : BUFSIZE / 2 ≤ cut w ∨ moves ∧ 0 < cut w := by
          rw [hcut]
          exact hmove.imp_right fun hm => ⟨hm, hpos⟩
        rw [windows_iff hlong hmove', hcut]
    · rw [h.back.refill_eq_none hf hmove] at hr'
      cases hr'
  · rw [if_neg hi] at hr
    cases hr
    exact ⟨w, h, hfresh, hsolid, rfl, rfl, fun _ => Iff.rfl⟩

/-- **The loop of `visit` ends behind the word, or runs over the end of the file.** -/
theorem readWord_inv {fuel lo lo' : Nat} {r r' : FileReader} {w : Str} (h : Window r w lo)
    (hfresh : Ends (w.take lo)) (hsolid : Solid w lo r.i)
    (hrun : r.readWord moves fuel lo = some (lo', r')) : r'.i = r'.end_ + 1 ∨
      ∃ w' c, Window r' w' lo' ∧ r'.cur = some c ∧ isspace c = true ∧ Solid w' lo' r'.i ∧
        w'.drop lo' = w.drop lo ∧ (Windows moves w' ↔ Windows moves w) := by
  induction fuel generalizing r w lo with
  | zero => cases hrun
  | succ fuel ih =>
    rw [readWord] at hrun
    by_cases hd : r.done = true
    · have hdone := h.done_iff.mp hd
      rw [if_pos hdone] at hrun
      cases hrun
      exact Or.inl (congrArg (· + 1) hdone.1)
    · rw [if_neg (h.done_iff.not.mp hd)] at hrun
      obtain ⟨⟨lo₁, r₁⟩, hr₁, hrun⟩ := Option.bind_eq_some_iff.mp hrun
      obtain ⟨w₁, h₁, hfresh₁, hsolid₁, hdrop₁, -, hwin₁⟩ :=
        h.refillWord_spec hfresh hsolid hd hr₁
      obtain ⟨c, hc, hrun⟩ := Option.bind_eq_some_iff.mp hrun
      have hwin := hwin₁ (h₁.cur_eq.mp hc).1
      split at hrun
      · rename_i hspace
        cases hrun
        exact Or.inr ⟨w₁, c, h₁, hc, hspace, hsolid₁, hdrop₁, hwin⟩
      · rename_i hspace
        have hspace' : isspace c = false := Bool.eq_false_iff.mpr hspace
        rcases ih (h₁.succ hc le_rfl (Nat.le_succ_of_le h₁.lo_le)) hfresh₁
          (h₁.solid_succ hsolid₁ hc hspace') hrun with
          hover | ⟨w', d, h', hd', hs', hso', hdr', hw'⟩
        · exact Or.inl hover
        · exact Or.inr ⟨w', d, h', hd', hs', hso', hdr'.trans hdrop₁, hw'.trans hwin⟩

theorem Window.exists_refillWord {r : FileReader} {w : Str} {lo : Nat} (h : Window r w lo)
    (hfresh : Ends (w.take lo)) (hsolid : Solid w lo r.i) (hd : ¬ r.done = true)
    (hwin : Windows moves w) : ∃ lo₁ r₁, r.refillWord moves lo = some (lo₁, r₁) ∧
      r₁.i < r₁.end_ := by
  by_cases hi : r.i = r.end_
  · have hf := h.eof_eq_false hi hd
    have hlo := h.lo_le.trans (h.i_le.trans h.end_le)
    cases hwin with
    | last hlt => exact absurd (h.full hf).2 (Nat.not_le.mpr hlt)
    | next hlong hmove _ =>
      rw [h.cut_eq hi hf hfresh hsolid] at hmove
      obtain ⟨r₁, hr₁, -, hi₁, hend⟩ := h.refill_back hf (hmove.imp_right And.left)
      have hpos : 0 < lo := by
        rcases hmove with hhalf | hm
        · exact Nat.lt_of_lt_of_le (by decide) hhalf
        · exact hm.2
      refine ⟨0, r₁, ?_, by omega⟩
      rw [refillWord, if_pos hi, hr₁]
      rfl
  · exact ⟨lo, r, by rw [refillWord, if_neg hi], Nat.lt_of_le_of_ne h.i_le hi⟩

theorem exists_readWord {fuel lo : Nat} {r : FileReader} {w : Str} (h : Window r w lo)
    (hfresh : Ends (w.take lo)) (hsolid : Solid w lo r.i) (hwin : Windows moves w)
    (hspace : ∃ b ∈ w.drop r.i, isspace b = true) (hfuel : (w.drop r.i).length < fuel) :
    ∃ lo' r', r.readWord moves fuel lo = some (lo', r') ∧ r'.i < r'.end_ := by
  induction fuel generalizing r w lo with
  | zero => exact absurd hfuel (Nat.not_lt_zero _)
  | succ fuel ih =>
    have hd : ¬ r.done = true := by
      intro hd
      obtain ⟨hi, hf⟩ := h.done_iff.mp hd
      rw [h.drop_eq_nil hi hf] at hspace
      obtain ⟨b, hb, -⟩ := hspace
      cases hb
    obtain ⟨lo₁, r₁, hr₁, hlt⟩ := h.exists_refillWord hfresh hsolid hd hwin
    obtain ⟨w₁, h₁, hfresh₁, hsolid₁, -, hdrop₁, hwin₁⟩ := h.refillWord_spec hfresh hsolid hd hr₁
    obtain ⟨c, hc⟩ := h₁.exists_cur hlt
    have hstep : r.readWord moves (fuel + 1) lo = if isspace c then some (lo₁, r₁)
        else r₁.cur.bind fun _ => readWord moves fuel lo₁ { r₁ with i := r₁.i + 1 } := by
      rw [readWord, if_neg (h.done_iff.not.mp hd), hr₁]
      show r₁.cur.bind _ = _
      rw [hc]
      rfl
    rw [hstep, hc]
    split
    · exact ⟨lo₁, r₁, rfl, hlt⟩
    · rename_i hc'
      rw [← hdrop₁, h₁.drop_eq_cons hc] at hspace hfuel
      obtain ⟨b, hb, hbs⟩ := hspace
      refine ih (h₁.succ hc le_rfl (Nat.le_succ_of_le h₁.lo_le)) hfresh₁
        (h₁.solid_succ hsolid₁ hc (Bool.eq_false_iff.mpr hc')) ((hwin₁ hlt).mpr hwin)
        ⟨b, (List.mem_cons.mp hb).resolve_left ?_, hbs⟩ (Nat.lt_of_succ_lt_succ hfuel)
      rintro rfl
      exact hc' hbs

/-! ### One visit -/

theorem Window.terminate {r : FileReader} {w : Str} {lo : Nat} (h : Window r w lo) {c : UInt8}
    (hc : r.cur = some c) {buf : List UInt8} (hbuf : blit r.buf r.i [0] = some buf) :
    Window { r with buf := buf, i := r.i + 1 } w (r.i + 1) ∧ ∀ j < r.i, buf[j]? = r.buf[j]? := by
  have hile : r.i ≤ r.buf.length := by
    rw [h.size]
    exact h.i_le.trans (h.end_le.trans (Nat.le_succ _))
  have hlen : (r.buf.take r.i).length = r.i := List.length_take_of_le hile
  have heq := eq_of_blit hbuf
  refine ⟨⟨(length_blit hbuf).trans h.size, h.end_eq, h.unread_eq, h.eof_iff, le_rfl,
    (h.cur_eq.mp hc).1, fun j hj hlt => ?_⟩, fun j hj => ?_⟩
  · have hj' : r.i + 1 ≤ j := hj
    show buf[j]? = w[j]?
    have hlo := h.lo_le
    rw [← h.cells j (by omega) hlt, heq, List.getElem?_append_right (by omega), hlen,
      List.getElem?_append_right (by rw [List.length_singleton]; omega), List.getElem?_drop,
      List.length_singleton]
    congr 1
    omega
  · rw [heq, List.getElem?_append_left (by omega), List.getElem?_take_of_lt hj]

theorem Window.word_eq {r : FileReader} {w : Str} {lo : Nat} (h : Window r w lo) {c : UInt8}
    (hc : r.cur = some c) {buf : List UInt8} (hbuf : blit r.buf r.i [0] = some buf) :
    (((buf.take r.end_).drop lo).take (r.i - lo + 1)).take (r.i - lo) = (w.take r.i).drop lo := by
  have hfront := (h.terminate hc hbuf).2
  have hlt := (h.cur_eq.mp hc).1
  have hlo := h.lo_le
  have hilen := h.i_le_length
  refine List.ext_getElem? fun k => ?_
  by_cases hk : k < r.i - lo
  · rw [List.getElem?_take_of_lt hk, List.getElem?_take_of_lt (by omega), List.getElem?_drop,
      List.getElem?_drop, List.getElem?_take_of_lt (by omega), List.getElem?_take_of_lt (by omega),
      hfront _ (by omega), h.cells _ (Nat.le_add_right _ _) (by omega)]
  · rw [List.getElem?_eq_none, List.getElem?_eq_none]
    · rw [List.length_drop, List.length_take]
      omega
    · rw [List.length_take]
      omega

theorem Window.drop_eq_append {r : FileReader} {w : Str} {lo : Nat} (h : Window r w lo) {c : UInt8}
    (hc : r.cur = some c) : w.drop lo = (w.take r.i).drop lo ++ c :: w.drop (r.i + 1) := by
  have hlen : lo ≤ (w.take r.i).length := by
    rw [List.length_take_of_le h.i_le_length]
    exact h.lo_le
  rw [← h.drop_eq_cons hc, ← List.drop_append_of_le_length hlen, List.take_append_drop]

/-- **A `visit` that returns has read the next word**, and skipped the whitespace behind it. -/
theorem visit_inv {fuel : Nat} {r r' : FileReader} {w word : Str} (h : Window r w r.i)
    (hfresh : Ends (w.take r.i)) (hvisit : r.visit moves fuel = some (word, r')) :
    ∃ w' c t, Window r' w' r'.i ∧ Ends (w'.take r'.i) ∧ Stops r' ∧
      (Windows moves w' ↔ Windows moves w) ∧ word ≠ [] ∧ (∀ b ∈ word, isspace b = false) ∧
      isspace c = true ∧ w.drop r.i = word ++ c :: t ∧ w'.drop r'.i = t.dropWhile isspace := by
  obtain ⟨c₀, hc₀, hvisit⟩ := Option.bind_eq_some_iff.mp hvisit
  split at hvisit
  · cases hvisit
  rename_i hspace₀
  obtain ⟨⟨lo, r₁⟩, hread, hvisit⟩ := Option.bind_eq_some_iff.mp hvisit
  obtain ⟨buf, hbuf, hvisit⟩ := Option.bind_eq_some_iff.mp hvisit
  obtain ⟨copied, hcopied, hvisit⟩ := Option.bind_eq_some_iff.mp hvisit
  obtain ⟨next, hskip, hvisit⟩ := Option.bind_eq_some_iff.mp hvisit
  cases hvisit
  rcases readWord_inv h hfresh (solid_self w r.i) hread with
    hover | ⟨w₁, c, h₁, hc, hspace, hsolid, hdrop, hwin⟩
  · rw [slice] at hcopied
    split at hcopied
    · rename_i hle
      have hlen := List.length_take_le r₁.end_ buf
      omega
    · cases hcopied
  · obtain ⟨h₂, -⟩ := h₁.terminate hc hbuf
    obtain ⟨w', h', hfresh', hstops, hdrop', hwin'⟩ :=
      skipWhitespace_inv h₂ (h₁.ends_succ hc hspace) hskip
    have hword : copied.take (r₁.i - lo) = (w₁.take r₁.i).drop lo := by
      rw [slice] at hcopied
      split at hcopied
      · cases hcopied
        exact h₁.word_eq hc hbuf
      · cases hcopied
    have hsplit : w.drop r.i = copied.take (r₁.i - lo) ++ c :: w₁.drop (r₁.i + 1) := by
      rw [← hdrop, h₁.drop_eq_append hc, hword]
    refine ⟨w', c, w₁.drop (r₁.i + 1), h', hfresh', hstops, hwin'.trans hwin, ?_, ?_, hspace,
      hsplit, hdrop'⟩
    · intro hnil
      rw [hnil, List.nil_append, h.drop_eq_cons hc₀] at hsplit
      rw [(List.cons.inj hsplit).1] at hspace₀
      exact hspace₀ hspace
    · rw [hword]
      exact hsolid

/-- A file that ends with whitespace has some behind every word. -/
theorem exists_space {s : Str} (h : Ends s) (hne : s ≠ []) : ∃ b ∈ s, isspace b = true :=
  ⟨s.getLast hne, List.getLast_mem hne, h _ (List.getLast?_eq_some_getLast hne)⟩

theorem exists_visit {fuel : Nat} {r : FileReader} {w : Str} (h : Window r w r.i)
    (hfresh : Ends (w.take r.i)) {c : UInt8} (hc : r.cur = some c) (hspace : isspace c = false)
    (hwin : Windows moves w) (hends : Ends (w.drop r.i)) (hfuel : (w.drop r.i).length < fuel) :
    ∃ word r', r.visit moves fuel = some (word, r') := by
  have hne : w.drop r.i ≠ [] := by
    rw [h.drop_eq_cons hc]
    exact List.cons_ne_nil _ _
  obtain ⟨lo, r₁, hread, hlt⟩ :=
    exists_readWord h hfresh (solid_self w r.i) hwin (exists_space hends hne) hfuel
  rcases readWord_inv h hfresh (solid_self w r.i) hread with
    hover | ⟨w₁, d, h₁, hd, hdspace, -, hdrop, hwin₁⟩
  · omega
  have hsize := h₁.size
  have hend := h₁.end_le
  have hlo := h₁.lo_le
  obtain ⟨buf, hbuf⟩ : ∃ buf, blit r₁.buf r₁.i [0] = some buf := exists_blit (by
    rw [List.length_singleton]
    omega)
  obtain ⟨h₂, -⟩ := h₁.terminate hd hbuf
  have hlen : (buf.take r₁.end_).length = r₁.end_ :=
    List.length_take_of_le (by rw [length_blit hbuf]; omega)
  have hslice : slice (buf.take r₁.end_) lo (r₁.i - lo + 1) = some _ := slice_of_le (by omega)
  have hrest : (w₁.drop (r₁.i + 1)).length < fuel := by
    rw [← hdrop, h₁.drop_eq_append hd, List.length_append, List.length_cons] at hfuel
    omega
  obtain ⟨r', hskip⟩ := exists_skipWhitespace h₂ (h₁.ends_succ hd hdspace) (hwin₁.mpr hwin) hrest
  refine ⟨(((buf.take r₁.end_).drop lo).take (r₁.i - lo + 1)).take (r₁.i - lo), r', ?_⟩
  rw [visit, hc, Option.bind_eq_bind, Option.bind_some, if_neg (by rw [hspace]; decide)]
  show (r.readWord moves fuel r.i).bind _ = _
  rw [hread, Option.bind_some]
  show (blit r₁.buf r₁.i [0]).bind _ = _
  rw [hbuf, Option.bind_some]
  show (slice (buf.take r₁.end_) lo (r₁.i - lo + 1)).bind _ = _
  rw [hslice, Option.bind_some]
  show (skipWhitespace_ moves fuel { r₁ with buf := buf, i := r₁.i + 1 }).bind _ = _
  rw [hskip]
  rfl

/-! ### All visits -/

/-- **Visits that come to an end have read the words of the file**, whose windows were right and
which ends with whitespace. -/
theorem drive_inv {fuel n : Nat} {r : FileReader} {w : Str} {ws : List Str} (h : Window r w r.i)
    (hfresh : Ends (w.take r.i)) (hdrive : drive moves fuel n r = some ws) :
    Windows moves w ∧ Ends (w.drop r.i) ∧ ws = words (w.drop r.i) := by
  induction n generalizing r w ws with
  | zero => cases hdrive
  | succ n ih =>
    rw [drive] at hdrive
    split at hdrive
    · rename_i hd
      obtain ⟨hi, hf⟩ := h.done_iff.mp hd
      cases hdrive
      rw [h.drop_eq_nil hi hf]
      exact ⟨Windows.last (h.eof_iff.mp hf), ends_nil, rfl⟩
    · obtain ⟨⟨word, r'⟩, hvisit, hdrive⟩ := Option.bind_eq_some_iff.mp hdrive
      obtain ⟨ws', hrest, hdrive⟩ := Option.bind_eq_some_iff.mp hdrive
      cases hdrive
      obtain ⟨w', c, t, h', hfresh', -, hwin, hne, hword, hspace, hsplit, hdrop⟩ :=
        visit_inv h hfresh hvisit
      obtain ⟨hwin', hends', hws'⟩ := ih h' hfresh' hrest
      rw [hdrop] at hends' hws'
      rw [hsplit]
      refine ⟨hwin.mp hwin', (ends_append hspace).mpr (ends_dropWhile.mp hends'), ?_⟩
      rw [words_append hne hword hspace, hws', words_dropWhile]

/-- **When the windows are right and the file ends with whitespace, they do come to an end.** -/
theorem exists_drive {fuel n : Nat} {r : FileReader} {w : Str} (h : Window r w r.i)
    (hfresh : Ends (w.take r.i)) (hstops : Stops r) (hwin : Windows moves w)
    (hends : Ends (w.drop r.i)) (hfuel : (w.drop r.i).length < fuel)
    (hn : (w.drop r.i).length < n) : ∃ ws, drive moves fuel n r = some ws := by
  induction n generalizing r w with
  | zero => exact absurd hn (Nat.not_lt_zero _)
  | succ n ih =>
    rw [drive]
    rcases hstops with hd | ⟨c, hc, hspace⟩
    · rw [if_pos hd]
      exact ⟨[], rfl⟩
    · have hd : ¬ r.done = true := fun hd => by
        have hlt := (h.cur_eq.mp hc).1
        rw [(h.done_iff.mp hd).1] at hlt
        exact Nat.lt_irrefl _ hlt
      obtain ⟨word, r', hvisit⟩ := exists_visit h hfresh hc hspace hwin hends hfuel
      obtain ⟨w', d, t, h', hfresh', hstops', hwin', -, -, hdspace, hsplit, hdrop⟩ :=
        visit_inv h hfresh hvisit
      have hle : (t.dropWhile isspace).length ≤ t.length := (List.dropWhile_suffix _).length_le
      rw [hsplit, List.length_append, List.length_cons] at hfuel hn
      rw [hsplit, ends_append hdspace, ← ends_dropWhile, ← hdrop] at hends
      rw [← hdrop] at hle
      obtain ⟨ws, hrest⟩ := ih h' hfresh' hstops' (hwin'.mpr hwin) hends (by omega) (by omega)
      refine ⟨word :: ws, ?_⟩
      rw [if_neg hd, hvisit, Option.bind_eq_bind, Option.bind_some]
      show (drive moves fuel n r').bind _ = _
      rw [hrest]
      rfl

theorem readFile_inv {junk : Vector UInt8 (BUFSIZE + 1)} {fuel : Nat} {file : Str}
    {ws : List Str} (h : readFile moves junk fuel file = some ws) :
    Windows moves file ∧ Ends file ∧ ws = words file := by
  obtain ⟨r, hnew, hdrive⟩ := Option.bind_eq_some_iff.mp h
  obtain ⟨r₀, hr₀, hskip⟩ := Option.bind_eq_some_iff.mp hnew
  obtain ⟨r₁, hr₁, h₁, hi₁⟩ := fillBuffer_new moves junk file
  obtain rfl : r₁ = r₀ := Option.some.inj (hr₁.symm.trans hr₀)
  rw [← hi₁] at h₁
  obtain ⟨w', h', hfresh', -, hdrop, hwin⟩ := skipWhitespace_inv h₁ (by
    rw [hi₁]
    exact ends_nil) hskip
  obtain ⟨hwin', hends, hws⟩ := drive_inv h' hfresh' hdrive
  rw [hdrop, hi₁, List.drop_zero] at hends hws
  exact ⟨hwin.mp hwin', ends_dropWhile.mp hends, hws.trans (words_dropWhile file)⟩

/-- **A file is read word by word exactly when it is empty or ends with whitespace and its
windows are right.** -/
theorem readFile_iff (moves : Bool) (junk : Vector UInt8 (BUFSIZE + 1)) (file : Str) :
    (∃ fuel, readFile moves junk fuel file = some (words file)) ↔
      Ends file ∧ Windows moves file := by
  constructor
  · rintro ⟨fuel, h⟩
    obtain ⟨hwin, hends, -⟩ := readFile_inv h
    exact ⟨hends, hwin⟩
  · rintro ⟨hends, hwin⟩
    obtain ⟨r, hr, h, hi⟩ := fillBuffer_new moves junk file
    rw [← hi] at h
    have hfresh : Ends (file.take r.i) := by
      rw [hi]
      exact ends_nil
    have hall : (file.drop r.i).length < file.length + 1 := by
      rw [List.length_drop]
      omega
    obtain ⟨r', hskip⟩ := exists_skipWhitespace h hfresh hwin hall
    obtain ⟨w', h', hfresh', hstops, hdrop, hwin'⟩ := skipWhitespace_inv h hfresh hskip
    rw [hi, List.drop_zero] at hdrop
    have hlen : (w'.drop r'.i).length < file.length + 1 := by
      rw [hdrop]
      exact Nat.lt_succ_of_le (List.dropWhile_suffix _).length_le
    obtain ⟨ws, hdrive⟩ := exists_drive h' hfresh' hstops (hwin'.mpr hwin)
      (by rwa [hdrop, ends_dropWhile]) hlen hlen
    have hread : readFile moves junk (file.length + 1) file = some ws := by
      rw [readFile, new, hr, Option.bind_eq_bind, Option.bind_eq_bind, Option.bind_some, hskip]
      exact hdrive
    refine ⟨file.length + 1, ?_⟩
    rw [hread, (readFile_inv hread).2.2]

/-- A last word without whitespace behind it, a file of one whole buffer, and a word of one. -/
theorem readFile_differs :
    (¬ ∃ fuel, readFile true (Vector.replicate 1025 0) fuel [97] = some (words [97])) ∧
    (¬ ∃ fuel, readFile true (Vector.replicate 1025 0) fuel (List.replicate 1024 32) =
      some (words (List.replicate 1024 32))) ∧
    ¬ ∃ fuel, readFile true (Vector.replicate 1025 0) fuel (List.replicate 1024 97 ++ [32]) =
      some (words (List.replicate 1024 97 ++ [32])) := by
  refine ⟨?_, ?_, ?_⟩
  · rintro ⟨fuel, h⟩
    obtain ⟨-, hends, -⟩ := readFile_inv h
    exact absurd (hends 97 rfl) (by decide)
  · rintro ⟨fuel, h⟩
    obtain ⟨hwin, -⟩ := readFile_inv h
    have hlen : (List.replicate 1024 (32 : UInt8)).length = BUFSIZE := List.length_replicate
    cases hwin with
    | last hlt => exact absurd hlen hlt.ne
    | next hlt _ _ => exact absurd hlen hlt.ne'
  · rintro ⟨fuel, h⟩
    obtain ⟨hwin, -⟩ := readFile_inv h
    have hlen : (List.replicate 1024 (97 : UInt8)).length = BUFSIZE := List.length_replicate
    have htake : (List.replicate 1024 (97 : UInt8) ++ [32]).take BUFSIZE =
        List.replicate 1024 97 := by
      rw [← hlen, List.take_left]
    have hcut : cut (List.replicate 1024 97 ++ [32]) = 0 := by
      refine cut_eq (Nat.zero_le _) ?_ ends_nil fun b hb => ?_
      · rw [List.length_append, hlen]
        exact Nat.le_add_right _ _
      · rw [htake, List.drop_zero] at hb
        rw [List.eq_of_mem_replicate hb]
        decide
    cases hwin with
    | last hlt =>
      rw [List.length_append, hlen] at hlt
      exact absurd hlt (Nat.not_lt.mpr (Nat.le_add_right _ _))
    | next _ hmove _ =>
      rw [hcut] at hmove
      exact absurd hmove (by decide)

end FileReader

end Eau2
