import Eau2.Sorer.SorWriter

/-!
# String fields

What `get_string_field_` makes of the text of a field, and where it looks for it.  The
function is stated once more over what the file is read through, a `FieldReader`, so that a
reader may refuse every position outside a field; over the bytes of a file it is
`SorWriter.getStringField` (`getStringField_read`).

* `FieldReader.skipUp_eq`, `FieldReader.skipDown_eq`: the two trims, each with the end it stops at.
* `getStringField_of_shows`: whatever shows the field, its text is what is returned.
-/

namespace Eau2

open Bytes Scan Sorer

/-! ### The text of a field -/

def strip (s : Str) : Str := (s.dropWhile isspace).rdropWhile isspace

/-- Without a quote in front, and then without one behind. -/
def unquote (s : Str) : Str :=
  let s := if s.head? = some quote then s.tail else s
  if s.getLast? = some quote then s.dropLast else s

def fieldText (c : Str) : Str := unquote (strip c)

example : fieldText [32, 34, 97, 34, 32] = [97] := by decide
example : fieldText [34] = [] := by decide

theorem strip_isInfix (c : Str) : strip c <:+: c :=
  (List.rdropWhile_prefix isspace _).isInfix.trans (List.dropWhile_suffix isspace).isInfix

def quoted (b : Option UInt8) : Nat := if b = some quote then 1 else 0

theorem quoted_some (b : UInt8) : quoted (some b) = if b = quote then 1 else 0 := by
  simp only [quoted, Option.some.injEq]

/-- The quotes are cut off both ends, which may cross. -/
theorem unquote_eq (s : Str) : unquote s =
    (s.drop (quoted s.head?)).take (s.length - quoted s.getLast? - quoted s.head?) := by
  rw [unquote, quoted, quoted]
  cases s with
  | nil => rfl
  | cons b s =>
    by_cases hb : b = quote
    · have hhead : (b :: s).head? = some quote := congrArg some hb
      rw [if_pos hhead, if_pos hhead, List.tail_cons, List.drop_one, List.tail_cons]
      cases s with
      | nil =>
        rw [List.take_nil]
        rfl
      | cons b' s =>
        rw [List.getLast?_cons_cons]
        split
        · rw [List.dropLast_eq_take]
          rfl
        · rw [List.take_of_length_le (Nat.le_of_eq ?_)]
          rfl
    · have hhead : ¬ (b :: s).head? = some quote := fun h => hb (Option.some.inj h)
      rw [if_neg hhead, if_neg hhead, List.drop_zero]
      split
      · rw [List.dropLast_eq_take]
        rfl
      · exact (List.take_of_length_le le_rfl).symm

theorem unquote_isInfix (s : Str) : unquote s <:+: s := by
  rw [unquote_eq]
  exact (List.take_prefix _ _).isInfix.trans (List.drop_suffix _ _).isInfix

theorem nulFree_fieldText {c : Str} (h : NulFree c) : NulFree (fieldText c) :=
  fun h0 => h (((unquote_isInfix _).trans (strip_isInfix c)).subset h0)

theorem rdropWhile_append {p : UInt8 → Bool} {l : Str} (k : Str) (h : l.rdropWhile p ≠ []) :
    (k ++ l).rdropWhile p = k ++ l.rdropWhile p := by
  have hne : ¬ (l.reverse.dropWhile p).isEmpty = true := by
    rw [List.isEmpty_iff]
    intro hnil
    rw [List.rdropWhile, hnil] at h
    exact h rfl
  rw [List.rdropWhile, List.reverse_append, List.dropWhile_append, if_neg hne,
    List.reverse_append, List.reverse_reverse]
  rfl

theorem strip_cases (c : Str) :
    (c.takeWhile isspace = c ∧ c.rdropWhile isspace = [] ∧ strip c = []) ∨
    (strip c ≠ [] ∧ c.rdropWhile isspace = c.takeWhile isspace ++ strip c) := by
  by_cases hblank : ∀ b ∈ c, isspace b = true
  · refine Or.inl ⟨List.takeWhile_eq_self_iff.mpr hblank,
      List.rdropWhile_eq_nil_iff.mpr hblank, ?_⟩
    rw [strip, List.dropWhile_eq_nil_iff.mpr hblank]
    rfl
  · have hne : c.dropWhile isspace ≠ [] := fun h => hblank (List.dropWhile_eq_nil_iff.mp h)
    have hhead : ¬ isspace ((c.dropWhile isspace).head hne) = true := by
      rw [List.head_dropWhile_not isspace hne]
      exact Bool.false_ne_true
    have hstrip : strip c ≠ [] := by
      rw [strip, Ne, List.rdropWhile_eq_nil_iff]
      exact fun h => hhead (h _ (List.head_mem hne))
    refine Or.inr ⟨hstrip, ?_⟩
    conv_lhs => rw [← List.takeWhile_append_dropWhile (p := isspace) (l := c)]
    exact rdropWhile_append _ hstrip

/-! ### Readers -/

abbrev FieldReader := Nat → Scan UInt8

namespace FieldReader

def skipUp (rd : FieldReader) : Nat → Nat → Scan Nat
  | 0, i => pure i
  | n + 1, i => do
    let b ← rd i
    if isspace b then skipUp rd n (i + 1) else pure i

def skipDown (rd : FieldReader) : Nat → Nat → Scan Nat
  | 0, i => pure i
  | n + 1, i => do
    let b ← rd i
    if isspace b then skipDown rd n (i - 1) else pure i

def triml (rd : FieldReader) (start fin : Nat) : Scan Nat :=
  rd.skipUp (fin - (start + 1)) (start + 1)

def trimr (rd : FieldReader) (start fin : Nat) : Scan Nat :=
  if fin = 0 then throw .assertion else rd.skipDown (fin - 1 - start) (fin - 1)

def copyChars (rd : FieldReader) : Nat → Nat → StrBuff → Scan StrBuff
  | 0, _, str => pure str
  | n + 1, i, str => do
    let b ← rd i
    let str ← lift .outside (str.c [b])
    copyChars rd n (i + 1) str

def unquoted (rd : FieldReader) (start fin : Nat) : Scan Bool := do
  let b ← rd start
  if b = quote then pure false
  else
    let b ← rd fin
    pure (b != quote)

def getStringField (rd : FieldReader) (start fin : Int32) : Scan CStr := do
  let newStart ← rd.triml (toSizeT start).toNat (toSizeT fin).toNat
  let newEnd ← rd.trimr (toSizeT start).toNat (toSizeT fin).toNat
  let b ← rd newStart
  let newStart := if b = quote then newStart + 1 else newStart
  let b ← rd newEnd
  let newEnd := if b = quote then newEnd - 1 else newEnd
  let str ← rd.copyChars (newEnd + 1 - newStart) newStart StrBuff.new
  let plain ← rd.unquoted newStart newEnd
  let str ← lift .outside (if plain then str.c [] else some str)
  SorWriter.takeString str

/-! ### Over the bytes of a file -/

theorem skipUp_read (m : Mapped) (n i : Nat) : skipUp (read m) n i = Sorer.skipUp m n i := by
  induction n generalizing i with
  | zero => rfl
  | succ n ih =>
    rw [skipUp, Sorer.skipUp]
    simp only [ih]

theorem skipDown_read (m : Mapped) (n i : Nat) :
    skipDown (read m) n i = Sorer.skipDown m n i := by
  induction n generalizing i with
  | zero => rfl
  | succ n ih =>
    rw [skipDown, Sorer.skipDown]
    simp only [ih]

theorem copyChars_read (m : Mapped) (n i : Nat) (str : StrBuff) :
    copyChars (read m) n i str = SorWriter.copyChars m n i str := by
  induction n generalizing i str with
  | zero => rfl
  | succ n ih =>
    rw [copyChars, SorWriter.copyChars]
    simp only [ih]

/-- **Through `file[i]` it is the function of the writer.** -/
theorem getStringField_read (m : Mapped) (start fin : Int32) :
    getStringField (read m) start fin = SorWriter.getStringField m start fin := by
  rw [getStringField, SorWriter.getStringField, triml, skipUp_read, trimr, skipDown_read]
  simp only [copyChars_read]
  rfl

/-! ### Over a text -/

/-- The text `t` is read from position `i` on. -/
def Shows (rd : FieldReader) (i : Nat) (t : Str) : Prop := ∀ k b, t[k]? = some b → rd (i + k) = pure b

theorem Shows.head {rd : FieldReader} {i : Nat} {b : UInt8} {t : Str} (h : rd.Shows i (b :: t)) :
    rd i = pure b := h 0 b rfl

theorem Shows.right {rd : FieldReader} {i : Nat} {s t : Str} (h : rd.Shows i (s ++ t)) :
    rd.Shows (i + s.length) t := by
  intro k b hk
  rw [Nat.add_assoc]
  refine h _ b ?_
  rw [List.getElem?_append_right (Nat.le_add_right _ _), Nat.add_sub_cancel_left]
  exact hk

theorem Shows.left {rd : FieldReader} {i : Nat} {s t : Str} (h : rd.Shows i (s ++ t)) :
    rd.Shows i s := by
  intro k b hk
  refine h k b ?_
  rw [List.getElem?_append_left (List.getElem?_eq_some_iff.mp hk).1]
  exact hk

theorem Shows.tail {rd : FieldReader} {i : Nat} {b : UInt8} {t : Str} (h : rd.Shows i (b :: t)) :
    rd.Shows (i + 1) t := Shows.right (s := [b]) h

theorem Shows.take {rd : FieldReader} {i : Nat} {t : Str} (h : rd.Shows i t) (n : Nat) :
    rd.Shows i (t.take n) := by
  refine Shows.left (t := t.drop n) ?_
  rwa [List.take_append_drop]

theorem Shows.drop {rd : FieldReader} {i n : Nat} {t : Str} (h : rd.Shows i t) (hn : n ≤ t.length) :
    rd.Shows (i + n) (t.drop n) := by
  have hright : rd.Shows i (t.take n ++ t.drop n) := by rwa [List.take_append_drop]
  have hdrop := hright.right
  rwa [List.length_take, Nat.min_eq_left hn] at hdrop

/-- **`triml` stops behind the blanks in front.** -/
theorem skipUp_eq {rd : FieldReader} {i : Nat} {c : Str} (h : rd.Shows i c) :
    rd.skipUp c.length i = pure (i + (c.takeWhile isspace).length) := by
  induction c generalizing i with
  | nil => rfl
  | cons b c ih =>
    rw [List.length_cons, skipUp, h.head, pure_bind]
    by_cases hb : isspace b = true
    · rw [if_pos hb, ih h.tail, List.takeWhile_cons, if_pos hb, List.length_cons, Nat.add_assoc,
        Nat.add_comm 1]
    · rw [if_neg hb, List.takeWhile_cons, if_neg hb]
      rfl

/-- **`trimr` stops before the blanks behind, at the latest before the text.** -/
theorem skipDown_eq {rd : FieldReader} {i : Nat} {c : Str} (h : rd.Shows (i + 1) c) :
    rd.skipDown c.length (i + c.length) = pure (i + (c.rdropWhile isspace).length) := by
  induction c using List.reverseRecOn with
  | nil => rfl
  | append_singleton c b ih =>
    have hlast : rd (i + (c.length + 1)) = pure b := by
      rw [Nat.add_comm c.length, ← Nat.add_assoc]
      exact h.right.head
    rw [List.length_append, List.length_singleton, skipDown, hlast, pure_bind]
    by_cases hb : isspace b = true
    · rw [if_pos hb, List.rdropWhile_concat_pos _ _ _ hb]
      exact ih h.left
    · rw [if_neg hb, List.rdropWhile_concat_neg _ _ _ hb, List.length_append]
      rfl

theorem copyChars_eq {rd : FieldReader} {i : Nat} {t : Str} (h : rd.Shows i t) (hnul : NulFree t)
    {str : StrBuff} (hfits : str.Fits) :
    ∃ str', rd.copyChars t.length i str = pure str' ∧ str'.Fits ∧ str'.val = str.val ++ t := by
  induction t generalizing i str with
  | nil => exact ⟨str, rfl, hfits, (List.append_nil _).symm⟩
  | cons b t ih =>
    obtain ⟨hb, hnul'⟩ : NulFree [b] ∧ NulFree t :=
      ⟨fun h0 => hnul (List.mem_cons.mpr (Or.inl (List.mem_singleton.mp h0))),
        fun h0 => hnul (List.mem_cons_of_mem b h0)⟩
    obtain ⟨str₁, hc, hfits₁, hval⟩ := StrBuff.c_spec hfits [b]
    obtain ⟨str', hrest, hfits', hval'⟩ := ih h.tail hnul' hfits₁
    refine ⟨str', ?_, hfits', ?_⟩
    · rw [List.length_cons, copyChars, h.head, pure_bind, hc]
      exact hrest
    · rw [hval', hval, cstr_of_nulFree hb, List.append_assoc]
      rfl

/-! ### Over a field -/

/-- The field `<` `c` `>` is read from position `s` on. -/
abbrev ShowsField (rd : FieldReader) (s : Nat) (c : Str) : Prop :=
  rd.Shows s (opening :: (c ++ [closing]))

section

variable {rd : FieldReader} {s : Nat} {c : Str}

theorem ShowsField.within (h : rd.ShowsField s c) {i : Nat} (hle : s ≤ i)
    (hlt : i ≤ s + 1 + c.length) : ∃ b, rd i = pure b := by
  have hin : i - s < (opening :: (c ++ [closing])).length := by
    rw [List.length_cons, List.length_append, List.length_singleton]
    omega
  have hread := h (i - s) _ (List.getElem?_eq_getElem hin)
  rw [Nat.add_sub_cancel' hle] at hread
  exact ⟨_, hread⟩

theorem ShowsField.text (h : rd.ShowsField s c) : rd.Shows (s + 1) c := Shows.left (Shows.tail h)

theorem ShowsField.closing (h : rd.ShowsField s c) : rd (s + 1 + c.length) = pure closing :=
  Shows.head (Shows.right (Shows.tail h))

theorem ShowsField.bounds (h : rd.ShowsField s c) {first last : Nat}
    (hfirst : first = s + 1 + (c.takeWhile isspace).length)
    (hlast : last = s + (c.rdropWhile isspace).length) :
    ∃ b e, rd first = pure b ∧ rd last = pure e ∧
      rd.Shows (first + quoted (some b)) (fieldText c) ∧
      last - quoted (some e) + 1 - (first + quoted (some b)) = (fieldText c).length ∧
      first + quoted (some b) ≤ s + 1 + c.length ∧ s ≤ last - quoted (some e) ∧
      last - quoted (some e) ≤ s + 1 + c.length := by
  rcases strip_cases c with ⟨htake, hdrop, hstrip⟩ | ⟨hne, hdrop⟩
  · -- nothing but blanks: the two positions are the delimiters
    have htext : fieldText c = [] := by
      rw [fieldText, hstrip]
      rfl
    rw [htake] at hfirst
    rw [hdrop, List.length_nil, Nat.add_zero] at hlast
    subst hfirst hlast
    refine ⟨Sorer.closing, opening, h.closing, Shows.head h, ?_, ?_, ?_, ?_, ?_⟩
    · intro k b hk
      rw [htext] at hk
      cases hk
    · rw [htext, List.length_nil, show quoted (some opening) = 0 from rfl,
        show quoted (some Sorer.closing) = 0 from rfl]
      omega
    · rw [show quoted (some Sorer.closing) = 0 from rfl]
      omega
    · rw [show quoted (some opening) = 0 from rfl]
      omega
    · omega
  · rw [hdrop, List.length_append] at hlast
    obtain ⟨r, hr⟩ := List.rdropWhile_prefix isspace (c.dropWhile isspace)
    have hcut : c = c.takeWhile isspace ++ (strip c ++ r) := by
      rw [strip, hr, List.takeWhile_append_dropWhile]
    have hshows : rd.Shows first (strip c) := by
      have htext := h.text
      rw [hcut] at htext
      rw [hfirst]
      exact htext.right.left
    have hlen : (c.takeWhile isspace).length + (strip c).length ≤ c.length := by
      have hlength := congrArg List.length hcut
      rw [List.length_append, List.length_append] at hlength
      omega
    have hpos := List.length_pos_of_ne_nil hne
    -- the bytes at the two ends
    have hhead := hshows 0 _ (List.getElem?_eq_getElem hpos)
    have hend := hshows ((strip c).length - 1) _ (List.getElem?_eq_getElem (by omega))
    have hquoted : (strip c).head? = some ((strip c)[0]) := by
      rw [List.head?_eq_getElem?, List.getElem?_eq_getElem hpos]
    have hquoted' : (strip c).getLast? = some ((strip c)[(strip c).length - 1]) := by
      rw [List.getLast?_eq_getElem?, List.getElem?_eq_getElem]
    have hone : ∀ o, quoted o ≤ 1 := by
      intro o
      rw [quoted]
      split <;> omega
    have hp := hone (some ((strip c)[0]))
    have hq := hone (some ((strip c)[(strip c).length - 1]))
    have hlast' : first + ((strip c).length - 1) = last := by omega
    rw [hlast'] at hend
    have htext := unquote_eq (strip c)
    rw [hquoted, hquoted'] at htext
    refine ⟨_, _, hhead, hend, ?_, ?_, ?_, ?_, ?_⟩
    · rw [fieldText, htext]
      exact (hshows.drop (by omega)).take _
    · rw [fieldText, htext, List.length_take, List.length_drop]
      omega
    · omega
    · omega
    · omega

/-- **Whatever shows the field, its text is what is returned.** -/
theorem getStringField_of_shows (h : rd.ShowsField s c) (hnul : NulFree c) {start fin : Int32}
    (hstart : start.toInt = s) (hfin : fin.toInt = s + 1 + c.length) :
    rd.getStringField start fin = pure ⟨fieldText c, nulFree_fieldText hnul⟩ := by
  have hstart' : (toSizeT start).toNat = s := SorWriter.toSizeT_of_toInt hstart
  have hfin' : (toSizeT fin).toNat = s + 1 + c.length :=
    SorWriter.toSizeT_of_toInt (p := s + 1 + c.length) (by rw [hfin]; push_cast; rfl)
  have htriml : rd.triml s (s + 1 + c.length) = pure (s + 1 + (c.takeWhile isspace).length) := by
    rw [triml, Nat.add_sub_cancel_left]
    exact skipUp_eq h.text
  have htrimr : rd.trimr s (s + 1 + c.length) = pure (s + (c.rdropWhile isspace).length) := by
    rw [trimr, if_neg (by omega), show s + 1 + c.length - 1 = s + c.length by omega,
      Nat.add_sub_cancel_left]
    exact skipDown_eq h.text
  obtain ⟨b, e, hb, he, hshows, hlength, hfirst, hle, hlast⟩ := h.bounds rfl rfl
  have hup : ∀ (b : UInt8) (i : Nat), (if b = quote then i + 1 else i) = i + quoted (some b) := by
    intro b i
    rw [quoted_some]
    split <;> rfl
  have hdown : ∀ (b : UInt8) (i : Nat), (if b = quote then i - 1 else i) = i - quoted (some b) := by
    intro b i
    rw [quoted_some]
    split <;> rfl
  rw [getStringField, hstart', hfin', htriml, pure_bind, htrimr, pure_bind, hb, pure_bind, he,
    pure_bind, hup, hdown]
  -- the loop copies the text
  obtain ⟨str, hcopy, hfits, hval⟩ :=
    copyChars_eq hshows (nulFree_fieldText hnul) StrBuff.fits_new
  obtain ⟨plain, hplain⟩ : ∃ plain,
      rd.unquoted (s + 1 + (c.takeWhile isspace).length + quoted (some b))
        (s + (c.rdropWhile isspace).length - quoted (some e)) = pure plain := by
    obtain ⟨b', hb'⟩ := h.within (by omega) hfirst
    obtain ⟨e', he'⟩ := h.within hle hlast
    rw [unquoted, hb', pure_bind]
    by_cases hq : b' = quote
    · exact ⟨false, if_pos hq⟩
    · refine ⟨e' != quote, ?_⟩
      rw [if_neg hq, he', pure_bind]
  obtain ⟨str', hstr', hfits', hval'⟩ : ∃ str',
      (if plain then str.c [] else some str) = some str' ∧ str'.Fits ∧ str'.val = fieldText c := by
    cases plain with
    | false => exact ⟨str, rfl, hfits, hval⟩
    | true =>
      obtain ⟨str', hc, hfits', hval'⟩ := StrBuff.c_spec hfits []
      refine ⟨str', hc, hfits', ?_⟩
      rw [hval', hval, show cstr [] = [] from rfl, List.append_nil]
      rfl
  obtain ⟨str₂, hget, -, -⟩ := StrBuff.get_spec hfits'
  show copyChars rd (_ + 1 - _) _ StrBuff.new >>= _ = _
  rw [hlength, hcopy, pure_bind]
  show unquoted rd _ _ >>= _ = _
  rw [hplain, pure_bind, hstr']
  show SorWriter.takeString str' = _
  rw [hval'] at hget
  rw [SorWriter.takeString, hget]
  exact dif_pos (nulFree_fieldText hnul)

end

end FieldReader

/-! ### Over a file -/

/-- A field `<` `c` `>` of a file, whose delimiters stand at `start` and `fin`. -/
structure IsField (file : Mapped) (start fin : Int32) (c : Str) : Prop where
  nonneg : 0 ≤ start.toInt
  fin_eq : fin.toInt = start.toInt + 1 + c.length
  prefix_drop : (opening :: (c ++ [closing])) <+: file.bytes.drop start.toInt.toNat
  nulFree : NulFree c

theorem IsField.getElem? {file : Mapped} {start fin : Int32} {c : Str}
    (h : IsField file start fin c) {k : Nat} {b : UInt8}
    (hk : (opening :: (c ++ [closing]))[k]? = some b) :
    file.bytes[start.toInt.toNat + k]? = some b := by
  obtain ⟨rest, hrest⟩ := h.prefix_drop
  rw [← List.getElem?_drop, ← hrest, List.getElem?_append_left (List.getElem?_eq_some_iff.mp hk).1]
  exact hk

theorem IsField.shows {file : Mapped} {start fin : Int32} {c : Str}
    (h : IsField file start fin c) {rd : FieldReader}
    (hrd : ∀ i : Nat, start.toInt ≤ i → i ≤ fin.toInt → rd i = read file i) :
    rd.ShowsField start.toInt.toNat c := by
  intro k b hk
  obtain ⟨hlt, hget⟩ := List.getElem?_eq_some_iff.mp (h.getElem? hk)
  have hlen := (List.getElem?_eq_some_iff.mp hk).1
  rw [List.length_cons, List.length_append, List.length_singleton] at hlen
  have hnonneg := h.nonneg
  have hfin := h.fin_eq
  rw [hrd _ (by omega) (by omega), read_below hlt, hget]

/-- **A string field gives its text**, and so it does to a reader that shows nothing but
the field and its delimiters. -/
theorem string_field {file : Mapped} {start fin : Int32} {c : Str}
    (h : IsField file start fin c) :
    SorWriter.getStringField file start fin = pure ⟨fieldText c, nulFree_fieldText h.nulFree⟩ ∧
    ∀ rd : FieldReader, (∀ i : Nat, start.toInt ≤ i → i ≤ fin.toInt → rd i = read file i) →
      rd.getStringField start fin = pure ⟨fieldText c, nulFree_fieldText h.nulFree⟩ := by
  have hstart : start.toInt = start.toInt.toNat := (Int.toNat_of_nonneg h.nonneg).symm
  have hfin : fin.toInt = start.toInt.toNat + 1 + c.length := by
    rw [← hstart]
    exact h.fin_eq
  have hall : ∀ rd : FieldReader, (∀ i : Nat, start.toInt ≤ i → i ≤ fin.toInt → rd i = read file i) →
      rd.getStringField start fin = pure ⟨fieldText c, nulFree_fieldText h.nulFree⟩ :=
    fun rd hrd => FieldReader.getStringField_of_shows (h.shows hrd) h.nulFree hstart hfin
  refine ⟨?_, hall⟩
  rw [← FieldReader.getStringField_read]
  exact hall (read file) fun _ _ _ => rfl

theorem isField_quoted : IsField ⟨[60, 32, 34, 97, 34, 62, 10], fun _ => false⟩ 0 5
    [32, 34, 97, 34] where
  nonneg := by decide
  fin_eq := by decide
  prefix_drop := by decide
  nulFree := by decide

theorem string_field_quoted :
    SorWriter.getStringField ⟨[60, 32, 34, 97, 34, 62, 10], fun _ => false⟩ 0 5 =
      pure ⟨[97], by decide⟩ ∧
    FieldReader.getStringField (fun i =>
      if i ≤ 5 then read ⟨[60, 32, 34, 97, 34, 62, 10], fun _ => false⟩ i else throw .outside) 0 5 =
      pure ⟨[97], by decide⟩ := by
  obtain ⟨hfile, hreader⟩ := string_field isField_quoted
  refine ⟨hfile, hreader _ fun i _ hle => ?_⟩
  have hfive : (5 : Int32).toInt = 5 := by decide
  rw [if_pos (by omega)]

end Eau2
