import Eau2.Dataframe.Schema

/-!
# Rows, readers and writers

`dataframe/row`.  A row has one entry for each column of its schema, set or not, and
`set` exits on a column of another type: so what is set always has its column's type,
which is part of a `Row` here.

A writer is a state machine: `done` answers, and may move; `visit` fills a row.
`Emits` is the run of a writer that sets every column of every row it is given: the
rows it fills, in order, until `done` says so.
-/

namespace Eau2

open Serializer

@[ext] structure Row where
  scm : Schema
  /-- What `entries_` holds; `none` where nothing is set. -/
  entries : List (Option Cell)
  rowIdx : SizeT
  width_eq : entries.length = scm.width
  typed : ∀ (i : Nat) (c : Cell), entries[i]? = some (some c) → scm.types[i]? = some c.type

namespace Row

def unset (scm : Schema) (rowIdx : SizeT) : Row where
  scm := scm
  entries := List.replicate scm.width none
  rowIdx := rowIdx
  width_eq := List.length_replicate
  typed i c h := by
    rw [List.getElem?_replicate] at h
    split at h
    · cases h
    · cases h

/-- `Row(scm)`, which keeps a copy of the schema. -/
def new (scm : Schema) : Option Row := do
  let scm ← scm.copy
  pure (unset scm 0)

def clear (r : Row) : Row := unset r.scm 0

def setIdx (r : Row) (idx : SizeT) : Row := { r with rowIdx := idx }

/-- `set`; a column out of bounds or of another type exits. -/
def set (r : Row) (col : Nat) (val : Cell) : Option Row :=
  if h : r.scm.types[col]? = some val.type then
    some { r with
      entries := r.entries.set col (some val)
      width_eq := by rw [List.length_set, r.width_eq]
      typed := by
        intro i c hc
        rw [List.getElem?_set] at hc
        split at hc
        · rename_i hi
          split at hc
          · cases hc
            rw [← hi]
            exact h
          · cases hc
        · exact r.typed i c hc }
  else none

/-- `get_int`, `get_bool`, `get_double` and `get_string`; a column out of bounds, of
another type or not set exits. -/
def get (r : Row) (t : DataType) (col : Nat) : Option Cell :=
  if r.scm.types[col]? = some t then r.entries[col]?.join else none

def width (r : Row) : Nat := r.entries.length

def IsSet (r : Row) (cells : List Cell) : Prop := r.entries = cells.map some

theorem IsSet.length {r : Row} {cells : List Cell} (h : r.IsSet cells) :
    cells.length = r.scm.width := by
  rw [← r.width_eq, h, List.length_map]

theorem IsSet.types {r : Row} {cells : List Cell} (h : r.IsSet cells) :
    cells.map Cell.type = r.scm.types := by
  refine List.ext_getElem ?_ fun i h1 h2 => ?_
  · rw [List.length_map, h.length]
    rfl
  · rw [List.length_map] at h1
    have ht := r.typed i cells[i] (by rw [h, List.getElem?_map, List.getElem?_eq_getElem h1]; rfl)
    rw [List.getElem?_eq_getElem h2] at ht
    rw [List.getElem_map]
    exact (Option.some.inj ht).symm

theorem IsSet.get {r : Row} {cells : List Cell} (h : r.IsSet cells) {i : Nat}
    (hi : i < cells.length) : r.get cells[i].type i = some cells[i] := by
  have ht : r.entries[i]? = some (some cells[i]) := by
    rw [h, List.getElem?_map, List.getElem?_eq_getElem hi]
    rfl
  rw [Row.get, if_pos (r.typed i _ ht), ht]
  rfl

theorem scm_set {r r' : Row} {col : Nat} {val : Cell} (h : r.set col val = some r') :
    r'.scm = r.scm := by
  rw [set] at h
  split at h
  · cases h
    rfl
  · cases h

theorem set_spec {r : Row} {col : Nat} {val : Cell} (h : r.scm.types[col]? = some val.type) :
    ∃ r', r.set col val = some r' ∧ r'.scm = r.scm ∧ r'.rowIdx = r.rowIdx ∧
      r'.entries = r.entries.set col (some val) :=
  ⟨_, dif_pos h, rfl, rfl, rfl⟩

theorem set_unset {scm : Schema} {c : Cell} (h : scm.types = [c.type]) (rowIdx : SizeT) :
    ∃ r, (unset scm rowIdx).set 0 c = some r ∧ r.IsSet [c] := by
  have ht : (unset scm rowIdx).scm.types[0]? = some c.type := by
    show scm.types[0]? = _
    rw [h]
    rfl
  obtain ⟨r, hset, -, -, hentries⟩ := set_spec ht
  refine ⟨r, hset, hentries.trans ?_⟩
  show (List.replicate scm.types.length none).set 0 (some c) = _
  rw [h]
  rfl

theorem isSet_of_get {r : Row}
    (h : ∀ (i : Nat) (t : DataType), r.scm.types[i]? = some t → (r.get t i).isSome) :
    ∃ cells, r.IsSet cells := by
  refine ⟨r.entries.map fun e => e.getD (.int 0), ?_⟩
  refine List.ext_getElem? fun i => ?_
  rw [List.map_map, List.getElem?_map]
  cases he : r.entries[i]? with
  | none => rfl
  | some e =>
    have hi : i < r.scm.types.length := by
      rw [show r.scm.types.length = r.scm.width from rfl, ← r.width_eq]
      exact (List.getElem?_eq_some_iff.mp he).1
    have hget := h i _ (List.getElem?_eq_getElem hi)
    rw [get, if_pos (List.getElem?_eq_getElem hi), he] at hget
    obtain ⟨c, rfl⟩ := Option.isSome_iff_exists.mp hget
    rfl

end Row

/-- A subclass of `Writer`, over the state of its objects.  It sets entries of the row it
is given, and leaves the row's schema alone. -/
structure Writer (σ : Type) where
  visit : σ → Row → Option (σ × Row)
  done : σ → Option (Bool × σ)
  scm_eq : ∀ s r s' r', visit s r = some (s', r') → r'.scm = r.scm

/-- From state `s` on, and given rows from index `i` on, the writer fills `rows` and is
then done. -/
inductive Writer.Emits {σ : Type} (w : Writer σ) (scm : Schema) :
    SizeT → σ → List (List Cell) → Prop
  | done (i : SizeT) (s s' : σ) : w.done s = some (true, s') → Emits w scm i s []
  | visit (i : SizeT) (s s₁ s₂ : σ) (r : Row) (cells : List Cell) (rows : List (List Cell)) :
      w.done s = some (false, s₁) → w.visit s₁ (Row.unset scm i) = some (s₂, r) →
      r.IsSet cells → Emits w scm (i + 1) s₂ rows →
      Emits w scm i s (cells :: rows)

theorem Writer.Emits.types {σ : Type} {w : Writer σ} {scm : Schema} {i : SizeT} {s : σ}
    {rows : List (List Cell)} (h : w.Emits scm i s rows) :
    ∀ cells ∈ rows, cells.map Cell.type = scm.types := by
  induction h with
  | done i s s' hd => simp
  | visit i s s₁ s₂ r cells rows hd hv hset hrest ih =>
    intro cells' hmem
    rcases List.mem_cons.mp hmem with rfl | hmem
    · rw [hset.types, w.scm_eq _ _ _ _ hv]
      rfl
    · exact ih cells' hmem

end Eau2
