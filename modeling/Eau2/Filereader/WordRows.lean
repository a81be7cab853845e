import Eau2.Dataframe.Row
import Eau2.Filereader.Words
import Eau2.Utils.Str

/-!
# Rows of words

A `FileReader` is the `Writer` of a dataframe with one column of strings.  A `String` with a
zero byte is not modelled, so a word has none here.

* `emits_fileReader`: from window to window, a `FileReader` fills one row for each word.
* `exists_emits`: so it does from the beginning of a file that is read word by word.
-/

namespace Eau2

open Bytes

def fileReader (moves : Bool) (fuel : Nat) : Writer FileReader where
  visit r row := do
    let (word, r) ← r.visit moves fuel
    if h : NulFree word then do
      let row ← row.set 0 (.str ⟨word, h⟩)
      pure (r, row)
    else none
  done r := some (r.done, r)
  scm_eq := by
    intro r row r' row' h
    obtain ⟨⟨word, r₁⟩, -, h⟩ := Option.bind_eq_some_iff.mp h
    dsimp only at h
    split at h
    · obtain ⟨row₁, hset, h⟩ := Option.bind_eq_some_iff.mp h
      cases h
      exact Row.scm_set hset
    · cases h

theorem length_words_le (s : Str) : (words s).length ≤ s.length := by
  induction s with
  | nil => exact Nat.le_refl 0
  | cons c s ih =>
    by_cases hc : isspace c = true
    · rw [words_cons_space hc]
      exact Nat.le_succ_of_le ih
    · rw [words, List.splitOnP_cons_eq_if_modifyHead, if_neg hc, List.length_cons]
      rw [words] at ih
      cases hsplit : s.splitOnP isspace with
      | nil => exact absurd hsplit (List.splitOnP_ne_nil _ _)
      | cons l ls =>
        rw [hsplit] at ih
        rw [List.modifyHead_cons, List.filter_cons_of_pos (by simp), List.length_cons]
        exact Nat.succ_le_succ
          (Nat.le_trans ((List.sublist_cons_self l ls).filter _).length_le ih)

namespace FileReader

variable {moves : Bool} {scm : Schema}

def cells (w : CStr) : List Cell := [.str w]

/-- **One row for each word that is left.** -/
theorem emits_fileReader (hscm : scm.types = [.Str]) {fuel : Nat} {r : FileReader} {w : Str}
    (h : Window r w r.i) (hfresh : Ends (w.take r.i)) (hstops : Stops r) (hwin : Windows moves w)
    (hends : Ends (w.drop r.i)) (hnul : NulFree (w.drop r.i))
    (hfuel : (w.drop r.i).length < fuel) (idx : SizeT) :
    ∃ ws : List CStr, ws.map Subtype.val = words (w.drop r.i) ∧
      (fileReader moves fuel).Emits scm idx r (ws.map cells) := by
  obtain ⟨n, hn⟩ : ∃ n, (w.drop r.i).length < n := ⟨_, Nat.lt_succ_self _⟩
  induction n generalizing r w idx with
  | zero => exact absurd hn (Nat.not_lt_zero _)
  | succ n ih =>
    rcases hstops with hd | ⟨c, hc, hspace⟩
    · obtain ⟨hi, hf⟩ := h.done_iff.mp hd
      refine ⟨[], ?_, .done idx r r (congrArg (fun b => some (b, r)) hd)⟩
      rw [h.drop_eq_nil hi hf]
      rfl
    · have hd : r.done = false := by
        refine Bool.eq_false_iff.mpr fun hd => ?_
        have hlt := (h.cur_eq.mp hc).1
        rw [(h.done_iff.mp hd).1] at hlt
        exact Nat.lt_irrefl _ hlt
      obtain ⟨word, r', hvisit⟩ := exists_visit h hfresh hc hspace hwin hends hfuel
      obtain ⟨w', d, t, h', hfresh', hstops', hwin', hne, hword, hdspace, hsplit, hdrop⟩ :=
        visit_inv h hfresh hvisit
      have hle : (t.dropWhile isspace).length ≤ t.length := (List.dropWhile_suffix _).length_le
      have hwordNul : NulFree word := fun hmem => hnul (hsplit ▸ List.mem_append_left _ hmem)
      have hnul' : NulFree (w'.drop r'.i) := by
        intro hmem
        rw [hdrop] at hmem
        exact hnul (hsplit ▸ List.mem_append_right _
          (List.mem_cons_of_mem d ((List.dropWhile_suffix _).subset hmem)))
      rw [hsplit, List.length_append, List.length_cons] at hfuel hn
      rw [hsplit, ends_append hdspace, ← ends_dropWhile, ← hdrop] at hends
      rw [← hdrop] at hle
      obtain ⟨ws, hws, hemits⟩ := ih h' hfresh' hstops' (hwin'.mpr hwin) hends hnul' (by omega)
        (idx + 1) (by omega)
      have ht : scm.types[0]? = some (Cell.str ⟨word, hwordNul⟩).type := by
        rw [hscm]
        rfl
      obtain ⟨row, hset, -, -, helems⟩ := Row.set_spec (r := Row.unset scm idx) ht
      refine ⟨⟨word, hwordNul⟩ :: ws, ?_, .visit idx r r r' row _ _ ?_ ?_ ?_ hemits⟩
      · rw [List.map_cons, hws, hsplit, words_append hne hword hdspace, hdrop, words_dropWhile]
      · exact congrArg (fun b => some (b, r)) hd
      · show (r.visit moves fuel).bind _ = _
        rw [hvisit]
        show (if h : NulFree word then _ else none) = _
        rw [dif_pos hwordNul, hset]
        rfl
      · rw [Row.IsSet, helems]
        show (List.replicate scm.types.length none).set 0 _ = _
        rw [hscm]
        rfl

/-- **A file that is read word by word fills a row for each of its words.** -/
theorem exists_emits (hscm : scm.types = [.Str]) (junk : Vector UInt8 (BUFSIZE + 1)) {file : Str}
    (hends : Ends file) (hwin : Windows moves file) (hnul : NulFree file) {fuel : Nat}
    (hfuel : file.length < fuel) (idx : SizeT) :
    ∃ r, new moves junk fuel file = some r ∧ ∃ ws : List CStr,
      ws.map Subtype.val = words file ∧ (fileReader moves fuel).Emits scm idx r (ws.map cells) := by
  obtain ⟨r, hr, h, hi⟩ := fillBuffer_new moves junk file
  have hall : file.drop r.i = file := by rw [hi, List.drop_zero]
  rw [← hi] at h
  have hfresh : Ends (file.take r.i) := by
    rw [hi]
    exact ends_nil
  obtain ⟨r', hskip⟩ := exists_skipWhitespace h hfresh hwin (by rwa [hall])
  obtain ⟨w', h', hfresh', hstops, hdrop, hwin'⟩ := skipWhitespace_inv h hfresh hskip
  rw [hall] at hdrop
  have hlen := (List.dropWhile_suffix (l := file) isspace).length_le
  have hfuel' : (w'.drop r'.i).length < fuel := by
    rw [hdrop]
    omega
  obtain ⟨ws, hws, hemits⟩ := emits_fileReader hscm h' hfresh' hstops (hwin'.mpr hwin)
    (by rwa [hdrop, ends_dropWhile])
    (fun hmem => hnul ((List.dropWhile_suffix isspace).subset (hdrop ▸ hmem))) hfuel' idx
  refine ⟨r', ?_, ws, ?_, hemits⟩
  · rw [new, hr]
    exact hskip
  · rw [hws, hdrop, words_dropWhile]

end FileReader

end Eau2
