import Eau2.Sorer.Columnar

/-!
# Files of lines

What is parsed from a file whose lines are not empty, close their fields and have no NUL
and no `0xFF`.  The last newline may be missing, and behind the file NULs are read.

* `walk_lines`: the rows of such a file are its lines.
* `greatest_foldl_widen`: widening ends with the greatest type of each column.
* `parse_lines`: the schema and the arrays of such a file.
-/

namespace Eau2

namespace Sorer

open Scan

/-! ### Lines -/

/-- Is every field closed?  The flag says whether one is open. -/
def allClosed : Bool → Str → Bool
  | inside, [] => !inside
  | true, b :: bs => allClosed (b != closing) bs
  | false, b :: bs => allClosed (b == opening) bs

structure IsLine (line : Str) : Prop where
  nonempty : line ≠ []
  endless : ∀ b ∈ line, endsRow b = false
  closed : allClosed false line = true

def unlines (lines : List Str) : Str := lines.flatMap (· ++ [newline])

/-- The file has these lines; the last newline is optional. -/
def HasLines (file : Str) (lines : List Str) : Prop :=
  file = unlines lines ∨ file ++ [newline] = unlines lines

/-- The fields of each line, the first one starting at byte `i`. -/
def lineFields : Nat → List Str → List (List (Nat × Nat))
  | _, [] => []
  | i, line :: lines => (rowFrom none i line).1 :: lineFields (i + line.length + 1) lines

theorem rowFrom_line {o : Option Nat} {i : Nat} {line rest : Str}
    (hclosed : allClosed o.isSome line = true) (hend : ∀ b ∈ line, endsRow b = false)
    (hrest : rest = [] ∨ ∃ rest', rest = newline :: rest') :
    rowFrom o i (line ++ rest) = ((rowFrom o i line).1, .at (i + line.length)) := by
  induction line generalizing o i with
  | nil =>
    cases o with
    | some s => cases hclosed
    | none =>
      rcases hrest with rfl | ⟨rest', rfl⟩
      · rfl
      · rfl
  | cons b line ih =>
    have hb : ¬ endsRow b = true := by
      rw [hend b List.mem_cons_self]
      exact Bool.false_ne_true
    have hend' : ∀ b' ∈ line, endsRow b' = false := fun b' hb' => hend b' (List.mem_cons_of_mem b hb')
    have hnext : i + (b :: line).length = i + 1 + line.length := by
      rw [List.length_cons]
      omega
    rw [hnext, List.cons_append]
    cases o with
    | none =>
      rw [rowFrom, rowFrom, if_neg hb, if_neg hb]
      by_cases hopen : b = opening
      · rw [if_pos hopen, if_pos hopen]
        refine ih ?_ hend'
        rwa [Option.isSome_none, allClosed, beq_iff_eq.mpr hopen] at hclosed
      · rw [if_neg hopen, if_neg hopen]
        refine ih ?_ hend'
        rwa [Option.isSome_none, allClosed, beq_eq_false_iff_ne.mpr hopen] at hclosed
    | some s =>
      rw [rowFrom, rowFrom]
      by_cases hclose : b = closing
      · rw [if_pos hclose, if_pos hclose]
        have hrow := ih (o := none) (i := i + 1) (by
          rwa [Option.isSome_some, allClosed, bne_eq_false_iff_eq.mpr hclose] at hclosed) hend'
        rw [hrow]
      · have hnl : b ≠ newline := by
          rintro rfl
          exact hb rfl
        rw [if_neg hclose, if_neg hclose, if_neg hnl, if_neg hnl]
        refine ih ?_ hend'
        rwa [Option.isSome_some, allClosed, bne_iff_ne.mpr hclose] at hclosed

theorem HasLines.cons {file line : Str} {lines : List Str} (h : HasLines file (line :: lines)) :
    ∃ rest, file = line ++ rest ∧ (rest = [] ∨ ∃ rest', rest = newline :: rest') ∧
      HasLines (rest.drop 1) lines := by
  have htext : unlines (line :: lines) = line ++ newline :: unlines lines := by
    rw [unlines, List.flatMap_cons, List.append_assoc]
    rfl
  rw [HasLines, htext] at h
  rcases h with h | h
  · exact ⟨newline :: unlines lines, h, Or.inr ⟨_, rfl⟩, Or.inl rfl⟩
  · rcases List.eq_nil_or_concat (unlines lines) with hnil | ⟨rest', c, hcons⟩
    · rw [hnil] at h
      exact ⟨[], by rw [List.append_nil]; exact List.append_cancel_right h, Or.inl rfl,
        Or.inl hnil.symm⟩
    · rw [hcons, List.concat_eq_append, ← List.cons_append, ← List.append_assoc] at h
      obtain ⟨hfile, hc⟩ := List.append_inj' h rfl
      refine ⟨newline :: rest', hfile, Or.inr ⟨_, rfl⟩, Or.inr ?_⟩
      rw [hcons, List.concat_eq_append, ← hc]
      rfl

/-- **The rows of a file of lines are its lines.** -/
theorem walk_lines {file : Str} {i : Nat} {lines : List Str} (hfile : HasLines (file.drop i) lines)
    (hlines : ∀ line ∈ lines, IsLine line) :
    ∃ p, file.length ≤ p ∧ Walk file i (lineFields i lines) (.at p) := by
  induction lines generalizing i with
  | nil =>
    have hle : file.length ≤ i := by
      rw [← List.drop_eq_nil_iff]
      rcases hfile with h | h
      · exact h
      · exact absurd h (List.append_ne_nil_of_right_ne_nil _ (List.cons_ne_nil _ _))
    exact ⟨i, hle, .stop fun b hb => by
      rw [List.getElem?_eq_none hle] at hb
      cases hb⟩
  | cons line lines ih =>
    obtain ⟨hne, hend, hclosed⟩ := hlines line List.mem_cons_self
    obtain ⟨rest, hdrop, hrest, hnext⟩ := hfile.cons
    have hrow : rowAt file i = ((rowFrom none i line).1, .at (i + line.length)) := by
      rw [rowAt, hdrop]
      exact rowFrom_line hclosed hend hrest
    have hdrop' : file.drop (i + line.length + 1) = rest.drop 1 := by
      rw [← List.drop_drop, ← List.drop_drop, hdrop, List.drop_left]
    obtain ⟨p, hp, hwalk⟩ := ih (i := i + line.length + 1) (by rwa [hdrop'])
      (fun l hl => hlines l (List.mem_cons_of_mem _ hl))
    obtain ⟨b, line', rfl⟩ := List.exists_cons_of_ne_nil hne
    have hb : file[i]? = some b := by
      rw [← Nat.add_zero i, ← List.getElem?_drop, hdrop]
      rfl
    have hstep := Walk.row hb (by rw [hend b List.mem_cons_self]; exact Bool.false_ne_true)
      (by rw [hrow]) hwalk
    rw [hrow] at hstep
    exact ⟨p, hp, hstep⟩

/-! ### The greatest types -/

theorem widen_mem {ts ts' : List DataType} {j : Nat} {t : DataType}
    (h : (widen ts ts')[j]? = some t) : ts[j]? = some t ∨ ts'[j]? = some t := by
  rw [getElem?_widen] at h
  rcases hs : ts[j]? with _ | s <;> rcases hs' : ts'[j]? with _ | s' <;> rw [hs, hs'] at h
  · cases h
  · exact Or.inr h
  · exact Or.inl h
  · cases h
    rw [widenType]
    split
    · exact Or.inr rfl
    · exact Or.inl rfl

theorem widen_le {ts ts' : List DataType} {j : Nat} {t : DataType}
    (h : ts[j]? = some t ∨ ts'[j]? = some t) :
    ∃ w, (widen ts ts')[j]? = some w ∧ t.val ≤ w.val := by
  rw [getElem?_widen]
  rcases hs : ts[j]? with _ | s <;> rcases hs' : ts'[j]? with _ | s' <;> rw [hs, hs'] at h
  · rcases h with h | h <;> cases h
  · rcases h with h | h <;> cases h
    exact ⟨t, rfl, Nat.le_refl _⟩
  · rcases h with h | h <;> cases h
    exact ⟨t, rfl, Nat.le_refl _⟩
  · refine ⟨widenType s s', rfl, ?_⟩
    rw [widenType]
    rcases h with h | h <;> cases h <;> split <;> omega

theorem mem_foldl_widen {rows : List (List DataType)} {ts : List DataType} {j : Nat}
    {t : DataType} (h : (rows.foldl widen ts)[j]? = some t) :
    ∃ row ∈ ts :: rows, row[j]? = some t := by
  induction rows generalizing ts with
  | nil => exact ⟨ts, List.mem_cons_self, h⟩
  | cons row rows ih =>
    obtain ⟨row', hmem, ht⟩ := ih h
    rcases List.mem_cons.mp hmem with rfl | hmem
    · rcases widen_mem ht with ht | ht
      · exact ⟨ts, List.mem_cons_self, ht⟩
      · exact ⟨row, List.mem_cons_of_mem _ List.mem_cons_self, ht⟩
    · exact ⟨row', List.mem_cons_of_mem _ (List.mem_cons_of_mem _ hmem), ht⟩

theorem le_foldl_widen {rows : List (List DataType)} {ts row : List DataType} {j : Nat}
    {t : DataType} (hmem : row ∈ ts :: rows) (ht : row[j]? = some t) :
    ∃ w, (rows.foldl widen ts)[j]? = some w ∧ t.val ≤ w.val := by
  induction rows generalizing ts row t with
  | nil =>
    rw [List.mem_singleton] at hmem
    subst hmem
    exact ⟨t, ht, Nat.le_refl _⟩
  | cons row' rows ih =>
    -- in the widened row there is a type that is no less
    have hhead : (ts[j]? = some t ∨ row'[j]? = some t) →
        ∃ w, ((row' :: rows).foldl widen ts)[j]? = some w ∧ t.val ≤ w.val := by
      intro hor
      obtain ⟨w, hw, hle⟩ := widen_le hor
      obtain ⟨w', hw', hle'⟩ := ih List.mem_cons_self hw
      exact ⟨w', hw', hle.trans hle'⟩
    rcases List.mem_cons.mp hmem with rfl | hmem
    · exact hhead (Or.inl ht)
    rcases List.mem_cons.mp hmem with rfl | hmem
    · exact hhead (Or.inr ht)
    · exact ih (List.mem_cons_of_mem _ hmem) ht

theorem length_foldl_widen (rows : List (List DataType)) (ts : List DataType) :
    (rows.foldl widen ts).length = (rows.map List.length).foldl max ts.length := by
  induction rows generalizing ts with
  | nil => rfl
  | cons row rows ih =>
    rw [List.foldl_cons, ih, length_widen]
    rfl

/-! ### What is parsed -/

/-- A file behind which NULs are read. -/
def zeroFilled (file : Str) : Mapped := ⟨file, fun _ => true⟩

theorem read_zeroFilled {file : Str} {p : Nat} (h : file.length ≤ p) :
    read (zeroFilled file) p = pure 0 := by
  exact if_neg (Nat.not_lt.mpr h)

theorem toInt_toInt {p : Nat} (h : p < 2 ^ 31) : (toInt (UInt64.ofNat p)).toInt = p := by
  have hnat : ((UInt64.ofNat p).toBitVec.setWidth 32).toNat = p := by
    rw [BitVec.toNat_setWidth]
    show p % 2 ^ 64 % 2 ^ 32 = p
    omega
  show ((UInt64.ofNat p).toBitVec.setWidth 32).toInt = p
  rw [BitVec.toInt_eq_toNat_of_lt (by rw [hnat]; omega), hnat]

/-- A field between a `<` and a `>` of the file. -/
structure InFile (file : Str) (f : Nat × Nat) : Prop where
  lt : f.1 < f.2
  closing : file[f.2]? = some closing

theorem InFile.lt_length {file : Str} {f : Nat × Nat} (h : InFile file f) : f.2 < file.length :=
  (List.getElem?_eq_some_iff.mp h.closing).1

theorem Walk.inside {file : Str} {i : Nat} {rows : List (List (Nat × Nat))} {r : RowEnd}
    (h : Walk file i rows r) : ∀ fields ∈ rows, ∀ f ∈ fields, InFile file f := by
  induction h with
  | stop _ =>
    intro fields hmem
    cases hmem
  | broken =>
    intro fields hmem
    cases hmem
  | @row i e b rows r hb _ _ _ ih =>
    have hlt := (List.getElem?_eq_some_iff.mp hb).1
    intro fields hmem f hf
    rcases List.mem_cons.mp hmem with rfl | hmem
    · exact ⟨(of_mem_rowAt (Nat.le_of_lt hlt) hf).2.1, closing_of_mem_rowAt hf⟩
    · exact ih fields hmem f hf

/-- Array `j` has field `j` of each of `rows`. -/
def Tabulates (columnar : List FieldArray) (rows : List (List (Nat × Nat))) : Prop :=
  ∀ (j : Nat) (c : FieldArray), columnar[j]? = some c → c.len = rows.length ∧
    ∀ (i : Nat) fields (f : Nat × Nat), rows[i]? = some fields → fields[j]? = some f →
      ∃ start fin, c.getStart i = some start ∧ c.getEnd i = some fin ∧
        start.toInt = f.1 ∧ fin.toInt = f.2

theorem tabulates_of_built {columnar : List FieldArray} {rows : List (List (Nat × Nat))}
    (h : Built columnar rows) (hrows : ∀ fields ∈ rows, ∀ f ∈ fields, f.1 < 2 ^ 31 ∧ f.2 < 2 ^ 31) :
    Tabulates columnar rows := by
  intro j c hc
  have hholds := (h j c hc).holds
  constructor
  · refine hholds.size.trans ?_
    rw [List.length_map, List.length_map]
  · intro i fields f hfields hf
    obtain ⟨hi, hget⟩ := List.getElem?_eq_some_iff.mp hfields
    have hi' : i < ((rows.map fun fields => sizeTs (fields.getD j (0, 0))).map
        FieldArray.narrow).length := by
      rwa [List.length_map, List.length_map]
    have hat : ((rows.map fun fields => sizeTs (fields.getD j (0, 0))).map
        FieldArray.narrow)[i] = FieldArray.narrow (sizeTs f) := by
      rw [List.getElem_map, List.getElem_map, hget, List.getD_eq_getElem?_getD, hf]
      rfl
    have hstart := FieldArray.getStart_eq hholds hi'
    have hend := FieldArray.getEnd_eq hholds hi'
    rw [hat] at hstart hend
    obtain ⟨hf1, hf2⟩ := hrows fields (List.mem_of_getElem? hfields) f (List.mem_of_getElem? hf)
    exact ⟨_, _, hstart, hend, toInt_toInt hf1, toInt_toInt hf2⟩

/-- `types` has a type for each field of the longest of `rows`, the greatest of its
column. -/
structure Greatest (types : List DataType) (rows : List (List DataType)) : Prop where
  width : types.length = (rows.map List.length).foldl max 0
  mem : ∀ (j : Nat) t, types[j]? = some t → ∃ row ∈ rows, row[j]? = some t
  le : ∀ (j : Nat) t, types[j]? = some t → ∀ row ∈ rows, ∀ t', row[j]? = some t' → t'.val ≤ t.val

theorem greatest_foldl_widen (rows : List (List DataType)) :
    Greatest (rows.foldl widen []) rows := by
  refine ⟨length_foldl_widen rows [], ?_, ?_⟩
  · intro j t ht
    obtain ⟨row, hmem, hrow⟩ := mem_foldl_widen ht
    rcases List.mem_cons.mp hmem with rfl | hmem
    · cases hrow
    · exact ⟨row, hmem, hrow⟩
  · intro j t ht row hmem t' ht'
    obtain ⟨w, hw, hle⟩ := le_foldl_widen (List.mem_cons_of_mem [] hmem) ht'
    cases ht.symm.trans hw
    exact hle

theorem parse_walk {file : Str} {rows : List (List (Nat × Nat))} {p : Nat}
    (h : Walk file 0 rows (.at p)) (hp : file.length ≤ p) (hlen : file.length < 2 ^ 31 - 1) :
    (∃ schema, Settles (fun fuel => (parseSchema (zeroFilled file) fuel).run) (.ok schema) ∧
      schema.Grown ∧ schema.types = ((rows.take 500).map (rowTypes file)).foldl widen []) ∧
    ∀ schema, ∃ columnar,
      Settles (fun fuel => (makeColumnar (zeroFilled file) fuel 0 file.length schema).run)
        (.ok columnar) ∧
      columnar.length = schema.width ∧ Tabulates columnar (validRows file schema rows) := by
  have hm : (zeroFilled file).Terminated := rfl
  have hlen' : file.length < 2 ^ 64 := by omega
  have hread := read_zeroFilled hp
  constructor
  · obtain ⟨schema, hg, htypes, hloop⟩ := schemaLoop_walk (m := zeroFilled file) hm hlen' h
      (by intro p' hp'; cases hp'; exact hread) (by intro h; cases h) 500 Schema.grown_new
    refine ⟨schema, ⟨file.length + 3, ?_⟩, hg, htypes⟩
    intro fuel hfuel
    exact (hloop fuel hfuel).trans (if_neg (by simp))
  · intro schema
    obtain ⟨columnar, hwidth, hbuilt, hloop⟩ := makeColumnar_walk (m := zeroFilled file) hm hlen'
      schema h (by intro h; cases h)
    refine ⟨columnar, settles_of_succ (n := file.length + 5) ?_, hwidth,
      tabulates_of_built hbuilt ?_⟩
    · intro fuel hfuel
      refine (hloop fuel hfuel).trans ?_
      obtain ⟨fuel, rfl⟩ : ∃ fuel', fuel = fuel' + 1 := ⟨fuel - 1, by omega⟩
      rw [halt, hread, pure_bind, pure_bind]
      show columnarLoop _ _ _ _ _ _ = _
      rw [columnarLoop]
      exact if_neg (Nat.not_lt.mpr hp)
    · intro fields hmem f hf
      have hin := h.inside fields (List.mem_of_mem_filter hmem) f hf
      have hlt := hin.lt
      have hlt' := hin.lt_length
      omega

/-- **The schema of a file of lines has the greatest types of its first 500 lines, and the
arrays that are made with a schema store the positions of the lines that fit it.** -/
theorem parse_lines (file : Str) (lines : List Str) (hfile : HasLines file lines)
    (hlines : ∀ line ∈ lines, IsLine line) (hlen : file.length < 2 ^ 31 - 1) :
    (∃ schema, Settles (fun fuel => (parseSchema (zeroFilled file) fuel).run) (.ok schema) ∧
      Greatest schema.types (((lineFields 0 lines).take 500).map (rowTypes file))) ∧
    ∀ schema, ∃ columnar,
      Settles (fun fuel => (makeColumnar (zeroFilled file) fuel 0 file.length schema).run)
        (.ok columnar) ∧
      columnar.length = schema.width ∧
      Tabulates columnar (validRows file schema (lineFields 0 lines)) := by
  obtain ⟨p, hp, hwalk⟩ := walk_lines (i := 0) hfile hlines
  obtain ⟨⟨schema, hs, -, htypes⟩, hcolumnar⟩ := parse_walk hwalk hp hlen
  refine ⟨⟨schema, hs, ?_⟩, hcolumnar⟩
  rw [htypes]
  exact greatest_foldl_widen _

/-- `<1>` and `<a>`, without a last newline. -/
theorem parse_lines_two :
    (∃ schema, Settles (fun fuel => (parseSchema (zeroFilled [60, 49, 62, 10, 60, 97, 62]) fuel).run)
        (.ok schema) ∧
      Greatest schema.types (((lineFields 0 [[60, 49, 62], [60, 97, 62]]).take 500).map
        (rowTypes [60, 49, 62, 10, 60, 97, 62]))) ∧
    ∀ schema, ∃ columnar,
      Settles (fun fuel =>
        (makeColumnar (zeroFilled [60, 49, 62, 10, 60, 97, 62]) fuel 0 7 schema).run)
        (.ok columnar) ∧
      columnar.length = schema.width ∧
      Tabulates columnar (validRows [60, 49, 62, 10, 60, 97, 62] schema
        (lineFields 0 [[60, 49, 62], [60, 97, 62]])) := by
  refine parse_lines [60, 49, 62, 10, 60, 97, 62] [[60, 49, 62], [60, 97, 62]] (Or.inr rfl) ?_
    (by decide)
  intro line hline
  have hor : line = [60, 49, 62] ∨ line = [60, 97, 62] := by simpa using hline
  rcases hor with rfl | rfl
  · exact ⟨List.cons_ne_nil _ _, by simp [endsRow, newline, eof], rfl⟩
  · exact ⟨List.cons_ne_nil _ _, by simp [endsRow, newline, eof], rfl⟩

end Sorer

end Eau2
