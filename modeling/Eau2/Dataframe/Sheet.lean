import Eau2.Dataframe.LocalMap

/-!
# Dataframes as sheets of rows

What an application sees of a dataframe that it got from the store: its rows, which a
reader is run on.  `Sheet.map`, `Sheet.localMap` and `Sheet.fromVisitor` are what the three
operations of the dataframes do to sheets (`map_eq`, `localMap_eq`, `created_of_sheet`), so
that an application can be followed over sheets where it is taken for granted that
`waitAndGet` returns what was stored.
-/

namespace Eau2

/-- The rows a writer fills, bounded by the first argument: `Emits`, run. -/
def Writer.rowsOf {σ : Type} (w : Writer σ) (scm : Schema) :
    Nat → SizeT → σ → Option (List (List Cell))
  | 0, _, _ => none
  | fuel + 1, i, s => do
    let (done, s) ← w.done s
    if done then pure []
    else
      let (s, r) ← w.visit s (Row.unset scm i)
      let cells ← r.entries.mapM id
      let rows ← w.rowsOf scm fuel (i + 1) s
      pure (cells :: rows)

namespace Writer

variable {σ : Type} {w : Writer σ} {scm : Schema} {i : SizeT} {s : σ} {rows : List (List Cell)}

theorem isSet_iff {r : Row} {cells : List Cell} :
    r.IsSet cells ↔ r.entries.mapM id = some cells := by
  rw [mapM_eq_some_iff, Row.IsSet]
  constructor
  · intro h
    rw [h, List.forall₂_map_left_iff]
    exact List.forall₂_same.mpr fun c _ => rfl
  · intro h
    generalize r.entries = entries at h
    induction h with
    | nil => rfl
    | cons he _ ih => rw [List.map_cons, ← ih, ← show _ = some _ from he]; rfl

/-- **`rowsOf` returns exactly the rows of writers that come to an end.** -/
theorem rowsOf_eq_some_iff {fuel : Nat} :
    w.rowsOf scm fuel i s = some rows ↔ w.Emits scm i s rows ∧ rows.length < fuel := by
  constructor
  · intro h
    induction fuel generalizing i s rows with
    | zero => cases h
    | succ fuel ih =>
      obtain ⟨⟨done, s₁⟩, hd, h⟩ := Option.bind_eq_some_iff.mp h
      cases done with
      | true =>
        cases h
        exact ⟨Emits.done i s s₁ hd, Nat.succ_pos _⟩
      | false =>
        obtain ⟨⟨s₂, r⟩, hv, h⟩ := Option.bind_eq_some_iff.mp h
        obtain ⟨cells, hcells, h⟩ := Option.bind_eq_some_iff.mp h
        obtain ⟨rest, hrest, h⟩ := Option.bind_eq_some_iff.mp h
        cases h
        obtain ⟨hemits, hlen⟩ := ih hrest
        exact ⟨Emits.visit i s s₁ s₂ r cells rest hd hv (isSet_iff.mpr hcells) hemits,
          Nat.succ_lt_succ hlen⟩
  · rintro ⟨h, hlen⟩
    induction h generalizing fuel with
    | done i s s' hd =>
      obtain ⟨fuel, rfl⟩ : ∃ f, fuel = f + 1 := ⟨fuel - 1, by omega⟩
      rw [rowsOf, hd]
      rfl
    | visit i s s₁ s₂ r cells rows hd hv hset hrest ih =>
      obtain ⟨fuel, rfl⟩ : ∃ f, fuel = f + 1 := ⟨fuel - 1, by omega⟩
      have hrec := ih (Nat.lt_of_succ_lt_succ hlen)
      rw [rowsOf, hd]
      show (w.visit s₁ (Row.unset scm i)).bind _ = _
      rw [hv]
      show (r.entries.mapM id).bind _ = _
      rw [isSet_iff.mp hset]
      show (w.rowsOf scm fuel (i + 1) s₂).bind _ = _
      rw [hrec]
      rfl

theorem Emits.unique {rows' : List (List Cell)} (h : w.Emits scm i s rows)
    (h' : w.Emits scm i s rows') : rows = rows' := by
  have h1 := rowsOf_eq_some_iff.mpr ⟨h, show rows.length < rows.length + rows'.length + 1 by omega⟩
  have h2 := rowsOf_eq_some_iff.mpr ⟨h', show rows'.length < rows.length + rows'.length + 1 by omega⟩
  rw [h1] at h2
  exact Option.some.inj h2

end Writer

/-- The rows of a dataframe; a `size_t` counts them. -/
structure Sheet where
  types : List DataType
  rows : List (List Cell)
  typed : DataFrame.Typed types rows
  fits : rows.length < 2 ^ 64

abbrev Sheets := Key → Option Sheet

namespace Sheet

def nrows (t : Sheet) : SizeT := UInt64.ofNat t.rows.length

def row (t : Sheet) (i : Nat) : Row := DataFrame.rowAt (Schema.ofCols t.types) t.rows i

def map {ρ : Type} (t : Sheet) (rd : Reader ρ) (s : ρ) : Option ρ :=
  ((List.range t.rows.length).map t.row).foldlM rd s

/-- `local_map` on node `storeId`, its loop bounded by `fuel`. -/
def localMap {ρ : Type} (t : Sheet) (args : Args) (storeId : SizeT) (fuel : Nat) (rd : Reader ρ)
    (s : ρ) : Option ρ := do
  let is ← DataFrame.localIdxs args storeId t.nrows fuel 0
  (is.map t.row).foldlM rd s

/-- `fromVisitor` for columns of `types`, its loop bounded by `fuel`. -/
def fromVisitor {σ : Type} (types : List DataType) (w : Writer σ) (fuel : Nat) (s : σ) :
    Option Sheet :=
  match h : w.rowsOf (Schema.ofCols types) fuel 0 s with
  | some rows =>
    if hr : rows.length < 2 ^ 64 then
      some ⟨types, rows, (Writer.rowsOf_eq_some_iff.mp h).1.types, hr⟩
    else none
  | none => none

theorem isSet_row {t : Sheet} {i : Nat} (hi : i < t.rows.length) : (t.row i).IsSet t.rows[i] :=
  DataFrame.isSet_rowAt t.typed hi

theorem toNat_nrows (t : Sheet) : t.nrows.toNat = t.rows.length :=
  UInt64.toNat_ofNat_of_lt' t.fits

theorem fromVisitor_eq_some_iff {σ : Type} {types : List DataType} {w : Writer σ} {fuel : Nat}
    {s : σ} {t : Sheet} : fromVisitor types w fuel s = some t ↔
      t.types = types ∧ w.Emits (Schema.ofCols types) 0 s t.rows ∧ t.rows.length < fuel := by
  rw [← Writer.rowsOf_eq_some_iff]
  unfold fromVisitor
  constructor
  · intro h
    split at h
    · rename_i rows hrows
      split at h
      · cases h
        exact ⟨rfl, hrows⟩
      · cases h
    · cases h
  · rintro ⟨rfl, hrows⟩
    split
    · rename_i rows hrows'
      rw [hrows] at hrows'
      cases hrows'
      rw [dif_pos t.fits]
    · rename_i hrows'
      rw [hrows] at hrows'
      cases hrows'

section Dataframes

variable {args : Args} {store : Store} {t : Sheet} {df : DataFrame}

/-- **`map` of a dataframe is `map` of its sheet.** -/
theorem map_eq (hn : args.numNodes ≠ 0) (hb : args.blockSize ≠ 0) (hok : df.schema.Ok)
    (h : df.Shows args store t.types t.rows) {ρ : Type} (rd : Reader ρ) (s : ρ) :
    (DataFrame.map args store rd (s, df)).map Prod.fst = t.map rd s :=
  DataFrame.map_spec hn hb hok t.typed t.fits h rd s

/-- **`local_map` of a dataframe is `local_map` of its sheet.** -/
theorem localMap_eq (hn : args.numNodes ≠ 0) (hb : args.blockSize ≠ 0) (hok : df.schema.Ok)
    (h : df.Shows args store t.types t.rows) (storeId : SizeT) (fuel : Nat) {ρ : Type}
    (rd : Reader ρ) (s : ρ) :
    (DataFrame.localMap args store storeId fuel rd (s, df)).map Prod.fst =
      t.localMap args storeId fuel rd s :=
  DataFrame.localMap_eq hn hb hok t.typed h storeId fuel rd s

/-- **`fromVisitor` stores the dataframe of the sheet.** -/
theorem created_of_sheet (hn : args.numNodes ≠ 0) (hb : args.blockSize ≠ 0) (k : Key) {scm : Str}
    (hlen : scm.length < 2 ^ 64) {types : List DataType}
    (hscm : scm.mapM DataType.charToType = some types) {σ : Type} {w : Writer σ} {fuel : Nat}
    {s : σ} (h : fromVisitor types w fuel s = some t) :
    ∃ capCols df puts, DataToDf.fromVisitor args fuel k scm w s = some (df, puts) ∧
      DataToDf.Created args k k t.types capCols t.rows df puts := by
  obtain ⟨htypes, hemits, hf⟩ := fromVisitor_eq_some_iff.mp h
  rw [htypes]
  exact DataToDf.created_of_visitor hn hb k hlen hscm hemits hf

end Dataframes

end Sheet

end Eau2
