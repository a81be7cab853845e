import Eau2.Base.Lists
import Eau2.Dataframe.Cell

/-!
# Schemas

`dataframe/schema.h`.  The first `numCols_` entries of `types_` are kept, and its
allocated length; a write behind the end of `types_` is `none`.  A schema is `Ok` when
its columns fit and each has one of the four types: `ofTypes_spec` and
`addColumn_spec` say that the constructors and `add_column` build such schemas, and
`reads_deserialize` that such schemas come back.
-/

namespace Eau2

open Bytes Serializer

structure Schema where
  /-- The first `numCols_` entries of `types_`. -/
  types : List DataType
  capCols : SizeT
  numRows : SizeT
  deriving DecidableEq, Repr

namespace Schema

def width (s : Schema) : Nat := s.types.length

def new : Schema := ⟨[], 2, 0⟩

def growColList_ (s : Schema) : Schema := { s with capCols := s.capCols * 2 }

def addColumn (typ : DataType) (s : Schema) : Option Schema :=
  let s := if s.capCols.toNat ≤ s.width then s.growColList_ else s
  if s.width < s.capCols.toNat then some { s with types := s.types ++ [typ] } else none

def addColumnChar (s : Schema) (typ : UInt8) : Option Schema := do
  let t ← DataType.charToType typ
  s.addColumn t

/-- `Schema(const char*)`. -/
def ofTypes (types : Str) : Option Schema :=
  types.foldlM addColumnChar ⟨[], UInt64.ofNat types.length, 0⟩

/-- `Schema(Schema&)`: the columns without the rows, with its assertion.  Its `int` counter is
in `SchemaObj.ofSchema`, which is this below `2 ^ 31` columns. -/
def copy (src : Schema) : Option Schema := do
  let s ← src.types.foldlM (fun s t => s.addColumn t)
    ⟨[], if src.width = 0 then 2 else UInt64.ofNat src.width, 0⟩
  if src.width = 0 ∨ UInt64.ofNat s.width = s.capCols then pure s else none

def addRows (numRows : SizeT) (s : Schema) : Schema := { s with numRows := s.numRows + numRows }

/-- `col_type`; an index out of bounds exits. -/
def colType (s : Schema) (idx : Nat) : Option DataType := s.types[idx]?

def set (idx : Nat) (type : DataType) (s : Schema) : Option Schema :=
  if idx < s.width then some { s with types := s.types.set idx type } else none

def clear (_ : Schema) : Schema := new

def serialize (s : Schema) : SerM Unit := do
  writeSizeT s.capCols
  writeSizeT (UInt64.ofNat s.width)
  writeSizeT s.numRows
  s.types.forM fun t => do
    let c ← t.typeToChar
    writeChar c

/-- A column's type, back from its letter. -/
def readType : SerM DataType := do
  let c ← readChar
  DataType.charToType c

/-- `deserialize`; more columns than `types_` is allocated for would be written behind
its end. -/
def deserialize : SerM Schema := do
  let capCols ← readSizeT
  let numCols ← readSizeT
  let numRows ← readSizeT
  if numCols ≤ capCols then
    let types ← readTimes readType numCols.toNat
    pure ⟨types, capCols, numRows⟩
  else failure

/-- The columns fit, and each has one of the four types. -/
structure Ok (s : Schema) : Prop where
  fits : s.width ≤ s.capCols.toNat
  typed : ∀ t ∈ s.types, t ≠ .Field

theorem ok_new : Ok new := ⟨Nat.zero_le _, by simp [new]⟩

theorem width_lt {s : Schema} (h : Ok s) : s.width < 2 ^ 64 :=
  Nat.lt_of_le_of_lt h.fits s.capCols.toNat_lt

theorem addColumn_spec {s : Schema} (h : Ok s) (hw : s.width < s.capCols.toNat)
    {typ : DataType} (ht : typ ≠ .Field) : ∃ s', s.addColumn typ = some s' ∧ Ok s' ∧
      s'.types = s.types ++ [typ] ∧ s'.capCols = s.capCols ∧ s'.numRows = s.numRows := by
  refine ⟨{ s with types := s.types ++ [typ] }, ?_, ⟨?_, ?_⟩, rfl, rfl, rfl⟩
  · rw [addColumn, if_neg (Nat.not_le.mpr hw)]
    exact if_pos hw
  · show (s.types ++ [typ]).length ≤ s.capCols.toNat
    rw [List.length_append]
    exact hw
  · intro t hmem
    rcases List.mem_append.mp hmem with hmem | hmem
    · exact h.typed t hmem
    · rwa [List.mem_singleton.mp hmem]

theorem foldlM_addColumn {s : Schema} (h : Ok s) {ts : List DataType}
    (hts : ∀ t ∈ ts, t ≠ .Field) (hw : s.width + ts.length ≤ s.capCols.toNat) :
    ts.foldlM (fun s t => s.addColumn t) s = some { s with types := s.types ++ ts } ∧
      Ok { s with types := s.types ++ ts } := by
  induction ts generalizing s with
  | nil =>
    rw [List.append_nil]
    exact ⟨rfl, h⟩
  | cons t ts ih =>
    rw [List.length_cons] at hw
    obtain ⟨s', he, hs', htypes, hcap, hrows⟩ :=
      addColumn_spec h (by omega) (hts t List.mem_cons_self)
    have heq : s' = { s with types := s.types ++ [t] } := by
      cases s'
      simp_all
    have hw' : s'.width = s.width + 1 := by
      rw [width, htypes, List.length_append]
      rfl
    have hrec := ih hs' (fun t ht => hts t (List.mem_cons_of_mem _ ht)) (by rw [hw', hcap]; omega)
    rw [heq, List.append_assoc, List.singleton_append] at hrec
    rw [List.foldlM_cons, he, heq]
    exact hrec

/-- The schema of `types`, without rows, that a copy ends up with. -/
def ofCols (types : List DataType) : Schema :=
  ⟨types, if types.length = 0 then 2 else UInt64.ofNat types.length, 0⟩

theorem copy_eq {s : Schema} (h : Ok s) : s.copy = some (ofCols s.types) := by
  have hw : (UInt64.ofNat s.width).toNat = s.width := UInt64.toNat_ofNat_of_lt' (width_lt h)
  obtain ⟨he, -⟩ := foldlM_addColumn
    (s := ⟨[], if s.width = 0 then 2 else UInt64.ofNat s.width, 0⟩)
    ⟨Nat.zero_le _, by simp⟩ h.typed (by
      show 0 + s.width ≤ UInt64.toNat (if s.width = 0 then 2 else UInt64.ofNat s.width)
      split
      · omega
      · rw [hw, Nat.zero_add])
  rw [copy, he]
  refine if_pos ?_
  by_cases h0 : s.width = 0
  · exact Or.inl h0
  · right
    rw [if_neg h0]
    rfl

/-- **A string of type letters is a schema of those types.** -/
theorem ofTypes_spec {scm : Str} {types : List DataType} (hlen : scm.length < 2 ^ 64)
    (h : scm.mapM DataType.charToType = some types) : ∃ s, ofTypes scm = some s ∧ Ok s ∧
      s.types = types ∧ s.numRows = 0 := by
  have hfield : ∀ t ∈ types, t ≠ .Field := by
    intro t ht
    obtain ⟨c, -, hc⟩ := mem_of_mapM h ht
    exact DataType.ne_field_of_charToType hc
  have hcap : (UInt64.ofNat scm.length).toNat = scm.length := UInt64.toNat_ofNat_of_lt' hlen
  obtain ⟨he, hok⟩ := foldlM_addColumn (s := ⟨[], UInt64.ofNat scm.length, 0⟩)
    ⟨Nat.zero_le _, by simp⟩ hfield (by
      rw [hcap, length_of_mapM h]
      show 0 + _ ≤ _
      omega)
  refine ⟨_, ?_, hok, List.nil_append _, rfl⟩
  rw [ofTypes, ← he]
  exact foldlM_of_mapM h (fun (s : Schema) t => s.addColumn t) _

/-! ### Growing -/

/-- The columns fit into an array that has doubled some times. -/
structure Grown (s : Schema) : Prop where
  fits : s.width ≤ s.capCols.toNat
  doubled : ∃ k, s.capCols.toNat = 2 ^ k

theorem grown_new : Grown new := ⟨by decide, 1, by decide⟩

theorem addColumn_grown {s : Schema} (h : Grown s) (hw : s.width < 2 ^ 63) (typ : DataType) :
    ∃ s', s.addColumn typ = some s' ∧ Grown s' ∧ s'.types = s.types ++ [typ] := by
  have hfits := h.fits
  obtain ⟨k, hk⟩ := h.doubled
  by_cases hfull : s.capCols.toNat ≤ s.width
  · have hlt : 2 ^ k < 2 ^ 63 := by omega
    have hcap : s.growColList_.capCols.toNat = 2 ^ (k + 1) := by
      have htwo : UInt64.toNat 2 = 2 := rfl
      rw [growColList_, UInt64.toNat_mul, hk, htwo, Nat.pow_succ]
      exact Nat.mod_eq_of_lt (by omega)
    have hroom : s.growColList_.width < s.growColList_.capCols.toNat := by
      rw [hcap, Nat.pow_succ]
      have hpos := Nat.two_pow_pos k
      show s.width < 2 ^ k * 2
      omega
    refine ⟨{ s.growColList_ with types := s.types ++ [typ] }, ?_, ⟨?_, k + 1, hcap⟩, rfl⟩
    · rw [addColumn, if_pos hfull]
      exact if_pos hroom
    · show (s.types ++ [typ]).length ≤ _
      rw [List.length_append]
      exact hroom
  · refine ⟨{ s with types := s.types ++ [typ] }, ?_, ⟨?_, k, hk⟩, rfl⟩
    · rw [addColumn, if_neg hfull]
      exact if_pos (Nat.not_le.mp hfull)
    · show (s.types ++ [typ]).length ≤ _
      rw [List.length_append]
      exact Nat.not_le.mp hfull

theorem set_grown {s : Schema} (h : Grown s) {idx : Nat} (hidx : idx < s.width) (typ : DataType) :
    ∃ s', s.set idx typ = some s' ∧ Grown s' ∧ s'.types = s.types.set idx typ := by
  refine ⟨{ s with types := s.types.set idx typ }, if_pos hidx, ⟨?_, h.doubled⟩, rfl⟩
  show (s.types.set idx typ).length ≤ _
  rw [List.length_set]
  exact h.fits

/-! ### On the wire -/

def typeBytes (t : DataType) : List UInt8 := le 1 (t.typeToChar.getD 0).toNat

def bytes (s : Schema) : List UInt8 :=
  le 8 s.capCols.toNat ++ (le 8 (UInt64.ofNat s.width).toNat ++ (le 8 s.numRows.toNat ++
    s.types.flatMap typeBytes))

theorem writes_typeToChar {t : DataType} (h : t ≠ .Field) :
    Writes (do let c ← (t.typeToChar : Option UInt8); writeChar c : SerM Unit) (typeBytes t) := by
  obtain ⟨c, hc⟩ := DataType.typeToChar_isSome h
  rw [typeBytes, hc]
  exact writes_writeLE 1 _

theorem reads_readType {t : DataType} (h : t ≠ .Field) : Reads readType (typeBytes t) t := by
  obtain ⟨c, hc⟩ := DataType.typeToChar_isSome h
  rw [typeBytes, hc]
  refine (reads_readChar c).map ?_
  rw [DataType.charToType_typeToChar hc]
  exact Reads.pure t

theorem writes_serialize {s : Schema} (h : Ok s) : Writes (serialize s) (bytes s) :=
  (writes_writeLE 8 _).bind ((writes_writeLE 8 _).bind ((writes_writeLE 8 _).bind
    (Writes.forM s.types fun t ht => writes_typeToChar (h.typed t ht))))

theorem reads_deserialize {s : Schema} (h : Ok s) : Reads deserialize (bytes s) s := by
  refine (reads_readSizeT _).bind ((reads_readSizeT _).bind ((reads_readSizeT _).bind ?_))
  have hw : (UInt64.ofNat s.width).toNat = s.types.length :=
    UInt64.toNat_ofNat_of_lt' (width_lt h)
  rw [if_pos (UInt64.le_iff_toNat_le.mpr (by rw [hw]; exact h.fits)), hw]
  have hread := Reads.readTimes (g := id) _ s.types fun t ht => reads_readType (h.typed t ht)
  rw [List.map_id] at hread
  exact hread.map (Reads.pure s)

end Schema

end Eau2
