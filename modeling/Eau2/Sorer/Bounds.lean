import Eau2.Sorer.Columnar

/-!
# Where parsing stays inside the file

A file is followed by one NUL, and behind that nothing may be read.  `parse_schema` and
`make_columnar` run soundly when they return, or stop at an assertion of their own.

* `parse_sound_iff`: they do exactly for the files that are well laid: up to the first
  field that a newline breaks off, no row is empty, every other field is closed and every
  row is ended by a byte of the file.
-/

namespace Eau2

namespace Sorer

open Scan

/-! ### Files that are well laid -/

/-- What the byte before the next one was part of. -/
inductive Place
  | line
  | text
  | field

/-- `laid` looks at each byte once: a row must not begin with a byte that ends rows, and
the file must not end in a row. -/
def laid : Place → Str → Bool
  | .line, [] => true
  | .text, [] => false
  | .field, [] => false
  | .line, b :: bs =>
    if endsRow b then false else if b = opening then laid .field bs else laid .text bs
  | .text, b :: bs =>
    if endsRow b then laid .line bs else if b = opening then laid .field bs else laid .text bs
  | .field, b :: bs =>
    -- a newline in a field is what the code asserts against
    if b = closing then laid .text bs else if b = newline then true else laid .field bs

def WellLaid (file : Str) : Prop := laid .line file = true

instance (file : Str) : Decidable (WellLaid file) := inferInstanceAs (Decidable (_ = true))

/-- The place of a byte in a row. -/
def place : Option Nat → Place
  | none => .text
  | some _ => .field

theorem laid_rowFrom (o : Option Nat) (i : Nat) (bs : Str) :
    laid (place o) bs = match (rowFrom o i bs).2 with
      | .at e => decide (e - i < bs.length) && laid .line (bs.drop (e - i + 1))
      | .assertion => true
      | .overrun => false := by
  -- what holds behind a byte holds with it
  have hcons : ∀ {o : Option Nat} {i : Nat} (b : UInt8) {bs : Str},
      laid (place o) bs = (match (rowFrom o (i + 1) bs).2 with
        | .at e => decide (e - (i + 1) < bs.length) && laid .line (bs.drop (e - (i + 1) + 1))
        | .assertion => true
        | .overrun => false) →
      laid (place o) bs = match (rowFrom o (i + 1) bs).2 with
        | .at e => decide (e - i < (b :: bs).length) && laid .line ((b :: bs).drop (e - i + 1))
        | .assertion => true
        | .overrun => false := by
    intro o i b bs hrest
    rw [hrest]
    cases hr : (rowFrom o (i + 1) bs).2 with
    | «at» e =>
      have hle := (end_rowFrom o (i + 1) bs hr).1
      have hsub : e - i = e - (i + 1) + 1 := by omega
      simp only [hsub, List.length_cons, Nat.add_lt_add_iff_right, List.drop_succ_cons]
    | assertion => rfl
    | overrun => rfl
  induction o, i, bs using rowFrom.induct with
  | case1 i => rfl
  | case2 i b bs hend =>
    rw [rowFrom, if_pos hend, place, laid, if_pos hend]
    simp
  | case3 i bs hend ih =>
    rw [rowFrom, if_neg hend, if_pos rfl, place, laid, if_neg hend, if_pos rfl]
    exact hcons opening ih
  | case4 i b bs hend hopen ih =>
    rw [rowFrom, if_neg hend, if_neg hopen, place, laid, if_neg hend, if_neg hopen]
    exact hcons b ih
  | case5 s i => rfl
  | case6 s i bs ih =>
    rw [rowFrom, if_pos rfl, place, laid, if_pos rfl]
    exact hcons closing ih
  | case7 s i bs hclose =>
    rw [rowFrom, if_neg hclose, if_pos rfl, place, laid, if_neg hclose, if_pos rfl]
  | case8 s i b bs hclose hnl ih =>
    rw [rowFrom, if_neg hclose, if_neg hnl, place, laid, if_neg hclose, if_neg hnl]
    exact hcons b ih

theorem laid_line_cons {b : UInt8} (h : ¬ endsRow b = true) (bs : Str) :
    laid .line (b :: bs) = laid .text (b :: bs) := by
  rw [laid, laid, if_neg h, if_neg h]

/-- **From a row on, a file is well laid exactly when its rows stop behind its last byte or
in a field that a newline breaks off.** -/
theorem laid_walk {file : Str} {i : Nat} {rows : List (List (Nat × Nat))} {r : RowEnd}
    (h : Walk file i rows r) (hi : i ≤ file.length) :
    laid .line (file.drop i) = true ↔ r = .at file.length ∨ r = .assertion := by
  induction h with
  | @stop i hstop =>
    rcases hb : file[i]? with _ | b
    · have hlen : i = file.length := Nat.le_antisymm hi (List.getElem?_eq_none_iff.mp hb)
      rw [hlen, List.drop_length]
      exact iff_of_true rfl (Or.inl rfl)
    · obtain ⟨hlt, hget⟩ := List.getElem?_eq_some_iff.mp hb
      rw [List.drop_eq_getElem_cons hlt, laid, hget, if_pos (hstop b hb)]
      refine iff_of_false Bool.false_ne_true ?_
      rintro (h | h)
      · cases h
        exact Nat.lt_irrefl _ hlt
      · cases h
  | @broken i b r hb hnot hr hat =>
    obtain ⟨hlt, hget⟩ := List.getElem?_eq_some_iff.mp hb
    have hrow := laid_rowFrom none i (file.drop i)
    rw [rowAt] at hr
    rw [hr] at hrow
    rw [List.drop_eq_getElem_cons hlt, laid_line_cons (by rwa [hget]),
      ← List.drop_eq_getElem_cons hlt]
    cases r with
    | «at» e => exact absurd rfl (hat e)
    | assertion => exact iff_of_true hrow (Or.inr rfl)
    | overrun =>
      refine iff_of_false ?_ (by rintro (h | h) <;> cases h)
      rw [show laid .text (file.drop i) = false from hrow]
      exact Bool.false_ne_true
  | @row i e b rows r hb hnot hr hrest ih =>
    obtain ⟨hlt, hget⟩ := List.getElem?_eq_some_iff.mp hb
    obtain ⟨hle, hle', -⟩ := le_of_rowAt hi hr
    have hrow := laid_rowFrom none i (file.drop i)
    rw [rowAt] at hr
    rw [hr] at hrow
    have hnext : i + (e - i + 1) = e + 1 := by omega
    have htext : laid .text (file.drop i) =
        (decide (e - i < (file.drop i).length) && laid .line (file.drop (e + 1))) := by
      rw [← hnext, ← List.drop_drop]
      exact hrow
    rw [List.drop_eq_getElem_cons hlt, laid_line_cons (by rwa [hget]),
      ← List.drop_eq_getElem_cons hlt, htext, Bool.and_eq_true, decide_eq_true_iff, List.length_drop]
    rcases Nat.lt_or_ge e file.length with hin | hout
    · rw [ih hin]
      exact and_iff_right (by omega)
    · -- the last row is not ended: the rows stop one byte too far
      refine iff_of_false (fun h => absurd h.1 (by omega)) ?_
      have hnone : file[e + 1]? = none := List.getElem?_eq_none (by omega)
      cases hrest with
      | stop _ =>
        rintro (h | h)
        · injection h with h
          omega
        · cases h
      | broken hb' => cases hnone.symm.trans hb'
      | row hb' => cases hnone.symm.trans hb'

/-! ### Sound runs -/

section

variable {α : Type} {f : Nat → Scan α} {result : Except Stop α}

/-- The run returns, or it stops at an assertion of its own. -/
def Sound (f : Nat → Scan α) : Prop :=
  ∃ result, Settles (fun fuel => (f fuel).run) result ∧ ∀ e, result = .error e → e = .assertion

theorem sound_iff (h : Settles (fun fuel => (f fuel).run) result) :
    Sound f ↔ ∀ e, result = .error e → e = .assertion := by
  constructor
  · intro hsound
    obtain ⟨result', hs', herr⟩ := hsound
    rwa [h.unique hs']
  · exact fun herr => ⟨result, h, herr⟩

theorem not_sound_of_spin {n : Nat} (h : ∀ fuel, n ≤ fuel → f fuel = spin) : ¬ Sound f := by
  intro hsound
  obtain ⟨result, hs, -⟩ := hsound
  exact not_settles_of_none h hs

end

/-- A file with one NUL behind it. -/
def upToNul (file : Str) : Mapped := ⟨file, fun i => i == file.length⟩

theorem terminated_upToNul (file : Str) : (upToNul file).Terminated := beq_self_eq_true _

theorem strict_upToNul (file : Str) : (upToNul file).Strict := by
  intro i hi
  exact beq_false_of_ne (Nat.ne_of_gt hi)

variable {file : Str}

theorem columnarLoop_stuck {m : Mapped} {schema : Schema} {p : Nat} {b : UInt8}
    (hb : m.bytes[p]? = some b) (hend : endsRow b = true) (fuel : Nat)
    (columnar : List FieldArray) :
    columnarLoop m schema m.bytes.length fuel p columnar = spin := by
  induction fuel with
  | zero => rfl
  | succ fuel ih =>
    obtain ⟨hlt, hread⟩ := read_of_getElem? hb
    rw [columnarLoop, if_pos hlt]
    cases fuel with
    | zero => rfl
    | succ fuel =>
      rw [rowLoop, hread, pure_bind, if_pos hend, pure_bind]
      exact ih

theorem Walk.at_stop {i p : Nat} {rows : List (List (Nat × Nat))}
    (h : Walk file i rows (.at p)) : ∀ b, file[p]? = some b → endsRow b = true := by
  generalize hr : RowEnd.at p = r at h
  induction h with
  | stop hstop =>
    cases hr
    exact hstop
  | broken _ _ _ hat => exact absurd hr.symm (hat p)
  | row _ _ _ _ ih => exact ih hr

theorem makeColumnar_sound_iff (hlen : file.length < 2 ^ 64) (schema : Schema)
    {rows : List (List (Nat × Nat))} {r : RowEnd} (h : Walk file 0 rows r) :
    Sound (fun fuel => makeColumnar (upToNul file) fuel 0 file.length schema) ↔
      r = .at file.length ∨ r = .assertion := by
  have hm := terminated_upToNul file
  have hstrict := strict_upToNul file
  obtain ⟨columnar, -, -, hrun⟩ :=
    makeColumnar_walk hm hlen schema h (fun _ => hstrict)
  cases r with
  | «at» p =>
    rcases Nat.lt_trichotomy p file.length with hlt | rfl | hgt
    · -- a row begins with a byte that ends rows
      have hb : file[p]? = some file[p] := List.getElem?_eq_getElem hlt
      refine iff_of_false (not_sound_of_spin (n := file.length + 6) ?_) ?_
      · intro fuel hfuel
        obtain ⟨fuel, rfl⟩ : ∃ fuel', fuel = fuel' + 1 := ⟨fuel - 1, by omega⟩
        have hread := (read_of_getElem? (m := upToNul file) hb).2
        have hstuck : columnarLoop (upToNul file) schema file.length fuel p columnar = spin :=
          columnarLoop_stuck hb (h.at_stop _ hb) fuel columnar
        refine (hrun fuel (by show file.length + 5 ≤ fuel; omega)).trans ?_
        rw [halt, hread, pure_bind, pure_bind]
        exact hstuck
      · rintro (h | h)
        · cases h
          exact Nat.lt_irrefl _ hlt
        · cases h
    · have hs : Settles (fun fuel => (makeColumnar (upToNul file) fuel 0 file.length schema).run)
          (.ok columnar) := by
        refine settles_of_succ (n := file.length + 5) ?_
        intro fuel hfuel
        obtain ⟨fuel, rfl⟩ : ∃ fuel', fuel = fuel' + 1 := ⟨fuel - 1, by omega⟩
        have hread := read_length hm
        refine (hrun (fuel + 1) hfuel).trans ?_
        rw [halt]
        rw [show read (upToNul file) file.length = pure 0 from hread, pure_bind, pure_bind]
        show columnarLoop _ _ _ _ _ _ = _
        rw [columnarLoop]
        exact if_neg (Nat.lt_irrefl _)
      rw [sound_iff hs]
      refine iff_of_true ?_ (Or.inl rfl)
      intro e he
      cases he
    · -- the last row is not ended
      have hs : Settles (fun fuel => (makeColumnar (upToNul file) fuel 0 file.length schema).run)
          (.error .outside) := by
        refine settles_of_succ (n := file.length + 5) ?_
        intro fuel hfuel
        refine (hrun fuel hfuel).trans ?_
        rw [halt, read_of_length_lt hstrict hgt]
        rfl
      rw [sound_iff hs]
      refine iff_of_false ?_ ?_
      · intro hall
        cases hall _ rfl
      · rintro (h | h)
        · cases h
          exact Nat.lt_irrefl _ hgt
        · cases h
  | assertion =>
    have hs : Settles (fun fuel => (makeColumnar (upToNul file) fuel 0 file.length schema).run)
        (.error .assertion) := settles_of_succ (n := file.length + 5) hrun
    rw [sound_iff hs]
    refine iff_of_true ?_ (Or.inr rfl)
    intro e he
    cases he
    rfl
  | overrun =>
    have hs : Settles (fun fuel => (makeColumnar (upToNul file) fuel 0 file.length schema).run)
        (.error .outside) := settles_of_succ (n := file.length + 5) hrun
    rw [sound_iff hs]
    refine iff_of_false ?_ (by rintro (h | h) <;> cases h)
    intro hall
    cases hall _ rfl

theorem parseSchema_sound (hlen : file.length < 2 ^ 64) {rows : List (List (Nat × Nat))}
    {r : RowEnd} (h : Walk file 0 rows r) (hr : r = .at file.length ∨ r = .assertion) :
    Sound (fun fuel => parseSchema (upToNul file) fuel) := by
  have hm := terminated_upToNul file
  obtain ⟨result, -, -, hloop⟩ := schemaLoop_walk (m := upToNul file) hm hlen h (by
      intro p hp
      rcases hr with rfl | rfl
      · cases hp
        exact read_length hm
      · cases hp) (by rcases hr with rfl | rfl <;> intro h <;> cases h) 500 Schema.grown_new
  by_cases hstop : r = .assertion ∧ rows.length < 500
  · refine ⟨.error .assertion, ⟨file.length + 3, ?_⟩, ?_⟩
    · intro fuel hfuel
      exact (hloop fuel hfuel).trans (if_pos hstop)
    · intro e he
      cases he
      rfl
  · refine ⟨.ok result, ⟨file.length + 3, ?_⟩, ?_⟩
    · intro fuel hfuel
      exact (hloop fuel hfuel).trans (if_neg hstop)
    · intro e he
      cases he

/-- **`parse_schema` and `make_columnar` return or stop at their assertions, and stay inside
the file, exactly for the files that are well laid.** -/
theorem parse_sound_iff (file : Str) (hlen : file.length < 2 ^ 64) (schema : Schema) :
    Sound (fun fuel => parseSchema (upToNul file) fuel) ∧
        Sound (fun fuel => makeColumnar (upToNul file) fuel 0 file.length schema) ↔
      WellLaid file := by
  obtain ⟨rows, r, h⟩ := walk_total file 0
  have hlaid := laid_walk h (Nat.zero_le _)
  rw [List.drop_zero] at hlaid
  rw [WellLaid, hlaid, makeColumnar_sound_iff hlen schema h]
  exact and_iff_right_of_imp (parseSchema_sound hlen h)

/-- `<1>` and a newline. -/
theorem parse_sound_iff_line :
    Sound (fun fuel => parseSchema (upToNul [60, 49, 62, 10]) fuel) ∧
      Sound (fun fuel => makeColumnar (upToNul [60, 49, 62, 10]) fuel 0 4 Schema.new) :=
  (parse_sound_iff [60, 49, 62, 10] (by decide) Schema.new).mpr (by decide)

/-- **At an empty line `make_columnar` does not return; without a last newline it reads
behind the NUL, and so does `parse_schema` in a field that nothing closes.** -/
theorem parse_unsound :
    Spins (fun fuel => (makeColumnar (upToNul [10]) fuel 0 1 Schema.new).run) ∧
      ¬ Sound (fun fuel => makeColumnar (upToNul [10]) fuel 0 1 Schema.new) ∧
      Settles (fun fuel => (makeColumnar (upToNul [60, 49, 62]) fuel 0 3 Schema.new).run)
        (.error .outside) ∧
      Settles (fun fuel => (parseSchema (upToNul [60, 49]) fuel).run) (.error .outside) := by
  have hstuck : ∀ fuel, makeColumnar (upToNul [10]) fuel 0 1 Schema.new = spin := fun fuel =>
    columnarLoop_stuck (m := upToNul [10]) (p := 0) rfl rfl fuel []
  refine ⟨hstuck, not_sound_of_spin (n := 0) fun fuel _ => hstuck fuel, ⟨20, ?_⟩, ⟨20, ?_⟩⟩
  · intro fuel hfuel
    obtain ⟨k, rfl⟩ := Nat.exists_eq_add_of_le' hfuel
    rfl
  · intro fuel hfuel
    obtain ⟨k, rfl⟩ := Nat.exists_eq_add_of_le' hfuel
    rfl

end Sorer

end Eau2
