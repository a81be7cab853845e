import Eau2.Base.Slots
import Eau2.Dataframe.Schema

/-!
# Schemas and their arrays

`dataframe/schema.h` with all cells of `types_`: an access outside of them and an
overflowing `int` are `undefined`, and what ends the program is an `exit`.

* `SchemaObj.Shows`: the schema of `Dataframe/Schema.lean` that an object is.
* `Shows.addColumn_cases`, `ofTypes_cases`, `Shows.ofSchema`, `Shows.set`, `Shows.transfer`:
  what each call makes of it.
-/

namespace Eau2

open Bytes Serializer

/-- A `Schema` with its whole array. -/
structure SchemaObj where
  /-- What has not been written is `none`. -/
  types : List (Option DataType)
  numCols : SizeT
  capCols : SizeT
  numRows : SizeT
  deriving DecidableEq, Repr

namespace SchemaObj

/-- `new DataType[n]`: an array of more bytes than a `size_t` counts is an exception. -/
def alloc (n : Nat) : Except Halt (List (Option DataType)) :=
  if n * 4 < 2 ^ 64 then .ok (List.replicate n none) else .error .exit

def store (types : List (Option DataType)) (i : Nat) (typ : DataType) :
    Except Halt (List (Option DataType)) :=
  if i < types.length then .ok (types.set i (some typ)) else .error .undefined

def load (types : List (Option DataType)) (i : Nat) : Except Halt DataType :=
  match types[i]?.join with
  | some typ => .ok typ
  | none => .error .undefined

def new : SchemaObj := ⟨List.replicate 2 none, 0, 2, 0⟩

def growColList_ (s : SchemaObj) : Except Halt SchemaObj := do
  let capCols := s.capCols * 2
  let newTypesArr ← alloc capCols.toNat
  let newTypesArr ← (List.range s.numCols.toNat).foldlM (fun arr i => do
    let typ ← load s.types i
    store arr i typ) newTypesArr
  .ok { s with types := newTypesArr, capCols := capCols }

def addColumn (typ : DataType) (s : SchemaObj) : Except Halt SchemaObj := do
  let s ← if s.capCols ≤ s.numCols then s.growColList_ else .ok s
  let types ← store s.types s.numCols.toNat typ
  .ok { s with types := types, numCols := s.numCols + 1 }

/-- `DataTypeUtils::charToType`, which exits on other characters. -/
def charToType (c : UInt8) : Except Halt DataType :=
  match DataType.charToType c with
  | some typ => .ok typ
  | none => .error .exit

/-- `DataTypeUtils::typeToChar`, which exits on other types. -/
def typeToChar (typ : DataType) : Except Halt UInt8 :=
  match typ.typeToChar with
  | some c => .ok c
  | none => .error .exit

def addColumnChar (s : SchemaObj) (typ : UInt8) : Except Halt SchemaObj := do
  let t ← charToType typ
  s.addColumn t

/-- `Schema(const char*)` -/
def ofTypes (types : Str) : Except Halt SchemaObj := do
  let arr ← alloc types.length
  types.foldlM addColumnChar ⟨arr, 0, UInt64.ofNat types.length, 0⟩

def width (s : SchemaObj) : SizeT := s.numCols

def colType (s : SchemaObj) (idx : SizeT) : Except Halt DataType :=
  if s.numCols ≤ idx then .error .exit else load s.types idx.toNat

/-- The loop of `Schema(Schema&, bool)` with `n` columns to go; its `i` is an `int`. -/
def copyCols (src : SchemaObj) : Nat → Nat → SchemaObj → Except Halt SchemaObj
  | 0, _, s => .ok s
  | n + 1, i, s => do
    let typ ← src.colType (UInt64.ofNat i)
    let s ← s.addColumn typ
    if i + 1 < 2 ^ 31 then copyCols src n (i + 1) s else .error .undefined

/-- `Schema(Schema&, bool)`, with its assertion; the rows are left out either way. -/
def ofSchema (src : SchemaObj) (_copyRows : Bool) : Except Halt SchemaObj := do
  let capCols := if src.width = 0 then 2 else src.width
  let types ← alloc capCols.toNat
  let s : SchemaObj := ⟨types, 0, capCols, 0⟩
  if src.width = 0 then .ok s
  else
    let s ← copyCols src src.width.toNat 0 s
    if s.numCols = s.capCols then .ok s else .error .exit

/-- `Schema(Schema&)` -/
def copy (src : SchemaObj) : Except Halt SchemaObj := ofSchema src true

def addRows (numRows : SizeT) (s : SchemaObj) : SchemaObj :=
  { s with numRows := s.numRows + numRows }

def set (idx : SizeT) (type : DataType) (s : SchemaObj) : Except Halt SchemaObj := do
  if s.numCols ≤ idx then .error .exit
  else
    let types ← store s.types idx.toNat type
    .ok { s with types := types }

def clear (_ : SchemaObj) : SchemaObj := new

def writeType (typ : DataType) : ExceptT Halt SerM Unit := do
  let c ← typeToChar typ
  writeChar c

def serialize (s : SchemaObj) : ExceptT Halt SerM Unit := do
  writeSizeT s.capCols
  writeSizeT s.numCols
  writeSizeT s.numRows
  (List.range s.numCols.toNat).forM fun i => do
    let typ ← load s.types i
    writeType typ

/-- `types[i] = charToType(readChar())` -/
def readType (types : List (Option DataType)) (i : Nat) :
    ExceptT Halt SerM (List (Option DataType)) := do
  let c ← readChar
  let typ ← charToType c
  store types i typ

def deserialize : ExceptT Halt SerM SchemaObj := do
  let capCols ← readSizeT
  let numCols ← readSizeT
  let numRows ← readSizeT
  let types ← alloc capCols.toNat
  let types ← (List.range numCols.toNat).foldlM readType types
  pure ⟨types, numCols, capCols, numRows⟩

/-- A serializer that is read behind its end, or that overflows, is undefined as well. -/
def onSerializer {α : Type} (m : ExceptT Halt SerM α) (s : Serializer) :
    Except Halt (α × Serializer) :=
  match m.run s with
  | none => .error .undefined
  | some (.error halt, _) => .error halt
  | some (.ok a, s) => .ok (a, s)

/-- `deserialize` of what `serialize` wrote. -/
def transfer (s : SchemaObj) : Except Halt SchemaObj := do
  let (_, ser) ← onSerializer s.serialize Serializer.new
  let (s, _) ← onSerializer deserialize (Serializer.ofBytes ser.buffer)
  .ok s

/-! ### The array -/

/-- An array of `cap` cells of which the first are written. -/
def filled (cols : List DataType) (cap : Nat) : List (Option DataType) :=
  cols.map some ++ List.replicate (cap - cols.length) none

theorem length_filled {cols : List DataType} {cap : Nat} (h : cols.length ≤ cap) :
    (filled cols cap).length = cap := by
  rw [filled, List.length_append, List.length_map, List.length_replicate]
  omega

theorem alloc_of_lt {n : Nat} (h : n * 4 < 2 ^ 64) : alloc n = .ok (filled [] n) := if_pos h

theorem load_eq (types : List (Option DataType)) (i : Nat) : load types i = Slots.load types i := by
  unfold load Slots.load
  cases types[i]?.join with
  | none => rfl
  | some typ => rfl

theorem load_filled {cols : List DataType} {cap i : Nat} (h : i < cols.length) :
    load (filled cols cap) i = .ok cols[i] := by
  rw [load_eq]
  exact Slots.load_filled h _

theorem store_filled {cols : List DataType} {cap : Nat} (h : cols.length < cap) (t : DataType) :
    store (filled cols cap) cols.length t = .ok (filled (cols ++ [t]) cap) := by
  have hcap : cap - cols.length = (cap - (cols ++ [t]).length) + 1 := by
    rw [List.length_append, List.length_singleton]
    omega
  rw [filled, hcap, List.replicate_succ]
  exact Slots.store_filled_next cols none _ t

theorem store_filled_set {cols : List DataType} {cap i : Nat} (h : i < cols.length) (t : DataType) :
    store (filled cols cap) i t = .ok (filled (cols.set i t) cap) := by
  rw [filled, filled, List.length_set]
  exact Slots.store_filled h _ t

theorem copy_filled {cols : List DataType} (cap : Nat) {cap' : Nat} (h : cols.length ≤ cap') :
    (List.range cols.length).foldlM (fun arr i => do
      let typ ← load (filled cols cap) i
      store arr i typ) (filled [] cap') = .ok (filled cols cap') := by
  have hroom : cols.length ≤ (filled [] cap').length := by rwa [length_filled (Nat.zero_le _)]
  have hcopy := Slots.copy_filled cols (List.replicate (cap - cols.length) none) hroom
  have hrest : (filled [] cap').drop cols.length = List.replicate (cap' - cols.length) none :=
    List.drop_replicate
  rw [hrest] at hcopy
  simp only [load_eq]
  exact hcopy

/-! ### What an object is -/

/-- The object is the schema `sch`: its columns are in front of an array of `capCols_` cells. -/
structure Shows (s : SchemaObj) (sch : Schema) : Prop where
  types_eq : s.types = filled sch.types sch.capCols.toNat
  numCols_eq : s.numCols.toNat = sch.width
  capCols_eq : s.capCols = sch.capCols
  numRows_eq : s.numRows = sch.numRows
  fits : sch.width ≤ sch.capCols.toNat
  /-- The array could be had. -/
  alloc : sch.capCols.toNat * 4 < 2 ^ 64

theorem shows_new : Shows new Schema.new := ⟨rfl, rfl, rfl, rfl, Nat.zero_le _, by decide⟩

theorem shows_empty {cap : SizeT} (h : cap.toNat * 4 < 2 ^ 64) :
    Shows ⟨filled [] cap.toNat, 0, cap, 0⟩ ⟨[], cap, 0⟩ :=
  ⟨rfl, rfl, rfl, rfl, Nat.zero_le _, h⟩

theorem Shows.colType {s : SchemaObj} {sch : Schema} (h : Shows s sch) (idx : SizeT) :
    s.colType idx = match sch.types[idx.toNat]? with
      | some t => .ok t
      | none => .error .exit := by
  have hle : s.numCols ≤ idx ↔ sch.types.length ≤ idx.toNat := by
    rw [UInt64.le_iff_toNat_le, h.numCols_eq]
    rfl
  rw [SchemaObj.colType]
  by_cases hlt : idx.toNat < sch.types.length
  · rw [if_neg fun hc => Nat.not_le.mpr hlt (hle.mp hc), h.types_eq, load_filled hlt,
      List.getElem?_eq_getElem hlt]
  · rw [if_pos (hle.mpr (Nat.not_lt.mp hlt)), List.getElem?_eq_none (Nat.not_lt.mp hlt)]

/-- **A column that fits is appended.** -/
theorem Shows.addColumn {s : SchemaObj} {sch : Schema} (h : Shows s sch)
    (hroom : sch.width < sch.capCols.toNat) (t : DataType) :
    ∃ s', s.addColumn t = .ok s' ∧ Shows s' { sch with types := sch.types ++ [t] } := by
  have hle : ¬ s.capCols ≤ s.numCols := by
    rw [UInt64.le_iff_toNat_le, h.numCols_eq, h.capCols_eq]
    omega
  have hnum : (s.numCols + 1).toNat = sch.width + 1 := by
    have hlt := sch.capCols.toNat_lt
    have hone : (1 : UInt64).toNat = 1 := rfl
    rw [UInt64.toNat_add, h.numCols_eq, hone]
    exact Nat.mod_eq_of_lt (by omega)
  have hstore : store s.types s.numCols.toNat t =
      .ok (filled (sch.types ++ [t]) sch.capCols.toNat) := by
    rw [h.types_eq, h.numCols_eq]
    exact store_filled hroom t
  refine ⟨{ s with types := filled (sch.types ++ [t]) sch.capCols.toNat, numCols := s.numCols + 1 },
    ?_, ⟨rfl, hnum.trans ?_, h.capCols_eq, h.numRows_eq, ?_, h.alloc⟩⟩
  · rw [SchemaObj.addColumn, if_neg hle]
    show (store s.types s.numCols.toNat t).bind _ = _
    rw [hstore]
    rfl
  · show sch.types.length + [t].length = (sch.types ++ [t]).length
    exact List.length_append.symm
  · show (sch.types ++ [t]).length ≤ _
    rw [List.length_append]
    exact hroom

theorem Shows.growColList_ {s : SchemaObj} {sch : Schema} (h : Shows s sch) :
    s.growColList_ = .error .exit ∨ ∃ s', s.growColList_ = .ok s' ∧ Shows s' sch.growColList_ := by
  have hcap : (sch.capCols * 2).toNat = sch.capCols.toNat * 2 := by
    have htwo : (2 : UInt64).toNat = 2 := rfl
    have halloc := h.alloc
    rw [UInt64.toNat_mul, htwo]
    exact Nat.mod_eq_of_lt (by omega)
  rw [SchemaObj.growColList_, h.capCols_eq, hcap]
  by_cases hlt : sch.capCols.toNat * 2 * 4 < 2 ^ 64
  · right
    have hfits := h.fits
    have hwidth : sch.types.length ≤ sch.capCols.toNat * 2 := by
      have hw : sch.width = sch.types.length := rfl
      omega
    have hcopy := copy_filled sch.capCols.toNat hwidth
    refine ⟨{ s with
        types := filled sch.types (sch.capCols.toNat * 2), capCols := sch.capCols * 2 }, ?_,
      ⟨?_, h.numCols_eq, rfl, h.numRows_eq, ?_, ?_⟩⟩
    · rw [alloc_of_lt hlt, h.types_eq, h.numCols_eq]
      show Except.bind (List.foldlM _ _ (List.range sch.types.length)) _ = _
      rw [hcopy]
      rfl
    · rw [Schema.growColList_, hcap]
    · rw [Schema.growColList_, hcap]
      exact hwidth
    · rw [Schema.growColList_, hcap]
      exact hlt
  · left
    rw [SchemaObj.alloc, if_neg hlt]
    rfl

/-- **A column is appended**, if the array can have one. -/
theorem Shows.addColumn_cases {s : SchemaObj} {sch : Schema} (h : Shows s sch)
    (hcap : sch.capCols ≠ 0) (t : DataType) :
    s.addColumn t = .error .exit ∨ ∃ s' sch', s.addColumn t = .ok s' ∧
      sch.addColumn t = some sch' ∧ Shows s' sch' ∧ sch'.types = sch.types ++ [t] := by
  by_cases hroom : sch.width < sch.capCols.toNat
  · obtain ⟨s', hadd, hs'⟩ := h.addColumn hroom t
    refine Or.inr ⟨s', _, hadd, ?_, hs', rfl⟩
    rw [Schema.addColumn, if_neg (Nat.not_le.mpr hroom)]
    exact if_pos hroom
  · have hfull := Nat.not_lt.mp hroom
    have hle : s.capCols ≤ s.numCols := by
      rw [UInt64.le_iff_toNat_le, h.numCols_eq, h.capCols_eq]
      exact hfull
    rcases h.growColList_ with hexit | ⟨g, hgrow, hg⟩
    · left
      rw [SchemaObj.addColumn, if_pos hle, hexit]
      rfl
    · have hgcap : sch.growColList_.capCols.toNat = sch.capCols.toNat * 2 := by
        have htwo : (2 : UInt64).toNat = 2 := rfl
        have halloc := h.alloc
        rw [Schema.growColList_, UInt64.toNat_mul, htwo]
        exact Nat.mod_eq_of_lt (by omega)
      have hpos : 0 < sch.capCols.toNat :=
        Nat.pos_of_ne_zero fun hz => hcap (UInt64.toNat_inj.mp hz)
      have hgroom : sch.growColList_.width < sch.growColList_.capCols.toNat := by
        rw [hgcap]
        have hfits := h.fits
        show sch.width < _
        omega
      obtain ⟨s', hadd, hs'⟩ := hg.addColumn hgroom t
      refine Or.inr ⟨s', _, ?_, ?_, hs', rfl⟩
      · have hgle : ¬ g.capCols ≤ g.numCols := by
          rw [UInt64.le_iff_toNat_le, hg.numCols_eq, hg.capCols_eq]
          exact Nat.not_le.mpr hgroom
        rw [← hadd, SchemaObj.addColumn, if_pos hle, hgrow, SchemaObj.addColumn, if_neg hgle]
      · rw [Schema.addColumn, if_pos hfull]
        exact if_pos hgroom

/-- **An array without a cell cannot have one**: twice none is none. -/
theorem Shows.addColumn_undefined {s : SchemaObj} {sch : Schema} (h : Shows s sch)
    (hcap : sch.capCols = 0) (t : DataType) : s.addColumn t = .error .undefined := by
  have hcap' : s.capCols = 0 := h.capCols_eq.trans hcap
  have hfits := h.fits
  have hwidth : sch.width = 0 := by
    rw [hcap] at hfits
    exact Nat.le_zero.mp hfits
  have hnum : s.numCols.toNat = 0 := h.numCols_eq.trans hwidth
  have hle : s.capCols ≤ s.numCols := by
    rw [UInt64.le_iff_toNat_le, hcap']
    exact Nat.zero_le _
  rw [SchemaObj.addColumn, if_pos hle, SchemaObj.growColList_, hcap', hnum]
  show Except.bind (store [] s.numCols.toNat t) (fun types => Except.ok
    { s with types := types, numCols := s.numCols + 1, capCols := 0 * 2 }) = _
  have hout : store [] s.numCols.toNat t = .error .undefined := if_neg (Nat.not_lt_zero _)
  rw [hout]
  rfl

/-! ### Constructors -/

theorem charToType_eq {c : UInt8} {t : DataType} (h : DataType.charToType c = some t) :
    charToType c = .ok t := by
  rw [charToType, h]

/-- **A string of letters that fits is appended letter by letter**, or a character is none. -/
theorem Shows.foldlM_addColumnChar {s : SchemaObj} {sch : Schema} (h : Shows s sch) {types : Str}
    (hroom : sch.width + types.length ≤ sch.capCols.toNat) :
    types.foldlM addColumnChar s = .error .exit ∨
      ∃ s' cols, types.mapM DataType.charToType = some cols ∧
        types.foldlM addColumnChar s = .ok s' ∧
        Shows s' { sch with types := sch.types ++ cols } := by
  induction types generalizing s sch with
  | nil =>
    refine Or.inr ⟨s, [], rfl, rfl, ?_⟩
    rw [List.append_nil]
    exact h
  | cons c types ih =>
    rw [List.length_cons] at hroom
    cases hc : DataType.charToType c with
    | none =>
      left
      rw [List.foldlM_cons, addColumnChar, charToType, hc]
      rfl
    | some t =>
      obtain ⟨s₁, hadd, hs₁⟩ := h.addColumn (by omega) t
      have hstep : addColumnChar s c = .ok s₁ := by
        rw [addColumnChar, charToType_eq hc]
        exact hadd
      have hwidth : ({ sch with types := sch.types ++ [t] } : Schema).width = sch.width + 1 :=
        List.length_append
      rw [List.foldlM_cons, hstep]
      rcases ih hs₁ (by rw [hwidth]; show _ ≤ sch.capCols.toNat; omega) with
        hexit | ⟨s', cols, hmap, hfold, hs'⟩
      · exact Or.inl hexit
      · refine Or.inr ⟨s', t :: cols, ?_, hfold, ?_⟩
        · rw [List.mapM_cons, hc, hmap]
          rfl
        · rw [List.append_assoc] at hs'
          exact hs'

/-- **`Schema(const char*)` is the schema of the letters**, with as many cells. -/
theorem ofTypes_cases (types : Str) : ofTypes types = .error .exit ∨
    ∃ s' cols, types.mapM DataType.charToType = some cols ∧ ofTypes types = .ok s' ∧
      Shows s' ⟨cols, UInt64.ofNat types.length, 0⟩ := by
  by_cases hlt : types.length * 4 < 2 ^ 64
  · have hcap : (UInt64.ofNat types.length).toNat = types.length :=
      UInt64.toNat_ofNat_of_lt' (show types.length < 2 ^ 64 by omega)
    have hempty : Shows _ ⟨[], UInt64.ofNat types.length, 0⟩ := shows_empty (by rwa [hcap])
    rw [hcap] at hempty
    have heq : ofTypes types = types.foldlM addColumnChar
        ⟨filled [] types.length, 0, UInt64.ofNat types.length, 0⟩ := by
      rw [ofTypes, alloc_of_lt hlt]
      rfl
    rw [heq]
    exact hempty.foldlM_addColumnChar (by rw [hcap]; show 0 + _ ≤ _; omega)
  · left
    rw [ofTypes, alloc, if_neg hlt]
    rfl

theorem Shows.colType_ofNat {s : SchemaObj} {sch : Schema} (h : Shows s sch) {i : Nat}
    (hi : i < sch.types.length) : s.colType (UInt64.ofNat i) = .ok sch.types[i] := by
  have hlt := sch.capCols.toNat_lt
  have hfits : sch.types.length ≤ _ := h.fits
  have htoNat : (UInt64.ofNat i).toNat = i :=
    UInt64.toNat_ofNat_of_lt' (show i < 2 ^ 64 by omega)
  rw [h.colType, htoNat, List.getElem?_eq_getElem hi]

/-- **The loop of a copy**, as far as its `int` goes. -/
theorem Shows.copyCols {src s : SchemaObj} {from_ sch : Schema} (hsrc : Shows src from_)
    {n i : Nat} (h : Shows s sch) (hi : sch.types = from_.types.take i) (hn : i + n = from_.width)
    (hcap : from_.width ≤ sch.capCols.toNat) (hlt : i < 2 ^ 31) :
    if from_.width < 2 ^ 31 then
      ∃ s', src.copyCols n i s = .ok s' ∧ Shows s' { sch with types := from_.types }
    else src.copyCols n i s = .error .undefined := by
  induction n generalizing s sch i with
  | zero =>
    obtain rfl : i = from_.width := by omega
    rw [if_pos hlt]
    refine ⟨s, rfl, ?_⟩
    have htake : sch.types = from_.types := hi.trans List.take_length
    rwa [← htake]
  | succ n ih =>
    have hilt : i < from_.types.length := by
      have hw : from_.width = from_.types.length := rfl
      omega
    have hwidth : sch.width = i := by
      rw [Schema.width, hi]
      exact List.length_take_of_le hilt.le
    obtain ⟨s₁, hadd, hs₁⟩ := h.addColumn (by omega) from_.types[i]
    have hstep : src.copyCols (n + 1) i s =
        if i + 1 < 2 ^ 31 then src.copyCols n (i + 1) s₁ else .error .undefined := by
      rw [SchemaObj.copyCols, hsrc.colType_ofNat hilt]
      show (s.addColumn from_.types[i]).bind _ = _
      rw [hadd]
      rfl
    rw [hstep]
    by_cases hnext : i + 1 < 2 ^ 31
    · rw [if_pos hnext]
      have hnew : sch.types ++ [from_.types[i]] = from_.types.take (i + 1) := by
        rw [hi, List.take_append_getElem]
      exact @ih s₁ { sch with types := sch.types ++ [from_.types[i]] } (i + 1) hs₁ hnew (by omega)
        hcap hnext
    · rw [if_neg hnext, if_neg (by omega)]

/-- **A copy has the columns and no rows**, as long as an `int` can count them. -/
theorem Shows.ofSchema {s : SchemaObj} {sch : Schema} (h : Shows s sch) (copyRows : Bool) :
    if sch.width < 2 ^ 31 then
      ∃ s', s.ofSchema copyRows = .ok s' ∧ Shows s' (Schema.ofCols sch.types)
    else s.ofSchema copyRows = .error .undefined := by
  have hwidth : s.width.toNat = sch.width := h.numCols_eq
  by_cases hz : s.width = 0
  · have hnil : sch.types = [] := by
      rw [hz] at hwidth
      exact List.length_eq_zero_iff.mp hwidth.symm
    rw [if_pos (by rw [← hwidth, hz]; decide), hnil]
    refine ⟨new, ?_, shows_new⟩
    simp only [SchemaObj.ofSchema, if_pos hz]
    rfl
  · have hfits := h.fits
    have halloc := h.alloc
    have hlt : s.width.toNat * 4 < 2 ^ 64 := by omega
    have hloop := h.copyCols (n := sch.width) (i := 0) (shows_empty hlt) rfl (Nat.zero_add _)
      hwidth.ge (by decide)
    have heq : s.ofSchema copyRows =
        (s.copyCols sch.width 0 ⟨filled [] s.width.toNat, 0, s.width, 0⟩).bind fun s' =>
          if s'.numCols = s'.capCols then .ok s' else .error .exit := by
      simp only [SchemaObj.ofSchema, if_neg hz, alloc_of_lt hlt, ← hwidth]
      rfl
    rw [heq]
    by_cases hint : sch.width < 2 ^ 31
    · rw [if_pos hint] at hloop ⊢
      obtain ⟨s', hcopy, hs'⟩ := hloop
      have hcols : (⟨sch.types, s.width, 0⟩ : Schema) = Schema.ofCols sch.types := by
        have hne : sch.types.length ≠ 0 := fun hc => hz (UInt64.toNat_inj.mp (hwidth.trans hc))
        have hof : UInt64.ofNat sch.types.length = s.width := by
          rw [show sch.types.length = s.width.toNat from hwidth.symm, UInt64.ofNat_toNat]
        rw [Schema.ofCols, if_neg hne, hof]
      rw [← hcols]
      refine ⟨s', ?_, hs'⟩
      have hall : s'.numCols = s'.capCols := by
        rw [← UInt64.toNat_inj, hs'.numCols_eq, hs'.capCols_eq]
        exact hwidth.symm
      rw [hcopy]
      exact if_pos hall
    · rw [if_neg hint] at hloop ⊢
      rw [hloop]
      rfl

/-- Below `2 ^ 31` columns the copy of `Dataframe/Schema.lean`, which a `Row` takes and which
counts in no `int`, is this one. -/
theorem Shows.ofSchema_copy {s : SchemaObj} {sch : Schema} (h : Shows s sch) (hok : sch.Ok)
    (hlt : sch.width < 2 ^ 31) (copyRows : Bool) :
    ∃ s' sch', s.ofSchema copyRows = .ok s' ∧ sch.copy = some sch' ∧ Shows s' sch' := by
  have hcopy := h.ofSchema copyRows
  rw [if_pos hlt] at hcopy
  obtain ⟨s', hs, hshows⟩ := hcopy
  exact ⟨s', Schema.ofCols sch.types, hs, Schema.copy_eq hok, hshows⟩

/-- **`set` writes over a column**; behind the last one the program ends. -/
theorem Shows.set {s : SchemaObj} {sch : Schema} (h : Shows s sch) (idx : SizeT) (t : DataType) :
    if idx.toNat < sch.width then
      ∃ s', s.set idx t = .ok s' ∧ Shows s' { sch with types := sch.types.set idx.toNat t }
    else s.set idx t = .error .exit := by
  have hle : s.numCols ≤ idx ↔ sch.width ≤ idx.toNat := by
    rw [UInt64.le_iff_toNat_le, h.numCols_eq]
  by_cases hlt : idx.toNat < sch.width
  · rw [if_pos hlt]
    have hlen : (sch.types.set idx.toNat t).length = sch.types.length := List.length_set
    refine ⟨{ s with types := filled (sch.types.set idx.toNat t) sch.capCols.toNat }, ?_,
      ⟨rfl, h.numCols_eq.trans hlen.symm, h.capCols_eq, h.numRows_eq, ?_, h.alloc⟩⟩
    · rw [SchemaObj.set, if_neg fun hc => Nat.not_le.mpr hlt (hle.mp hc), h.types_eq,
        store_filled_set hlt]
      rfl
    · exact hlen.le.trans h.fits
  · rw [if_neg hlt, SchemaObj.set, if_pos (hle.mpr (Nat.not_lt.mp hlt))]

theorem Shows.addRows {s : SchemaObj} {sch : Schema} (h : Shows s sch) (n : SizeT) :
    Shows (s.addRows n) (sch.addRows n) :=
  ⟨h.types_eq, h.numCols_eq, h.capCols_eq, congrArg (· + n) h.numRows_eq, h.fits, h.alloc⟩

/-! ### On the wire -/

theorem run_lift_bind {α β : Type} (m : SerM α) (k : α → ExceptT Halt SerM β) :
    ((m : ExceptT Halt SerM α) >>= k).run = m >>= fun a => (k a).run := by
  exact ExceptT.run_bind_lift m k

theorem run_writeType {t : DataType} {c : UInt8} (h : t.typeToChar = some c) :
    (writeType t).run = writeChar c >>= fun _ => pure (.ok ()) := by
  rw [writeType, typeToChar, h]
  show (writeChar c : ExceptT Halt SerM Unit).run = _
  rfl

theorem run_serialize {s : SchemaObj} {sch : Schema} (h : Shows s sch) :
    s.serialize.run = (do
      writeSizeT sch.capCols
      writeSizeT (UInt64.ofNat sch.width)
      writeSizeT sch.numRows
      (sch.types.forM writeType).run) := by
  have hnum : s.numCols = UInt64.ofNat sch.width := by
    rw [← h.numCols_eq, UInt64.ofNat_toNat]
  have hloop : ((List.range s.numCols.toNat).forM fun i => do
      let typ ← load s.types i
      writeType typ : ExceptT Halt SerM Unit) = sch.types.forM writeType := by
    have hall : ∀ n ≤ sch.types.length, ((List.range n).forM fun i => do
        let typ ← load s.types i
        writeType typ : ExceptT Halt SerM Unit) = (sch.types.take n).forM writeType := by
      intro n
      induction n with
      | zero => intro _; rfl
      | succ n ih =>
        intro hn
        rw [List.range_succ, ← List.take_append_getElem hn]
        show (forM (List.range n ++ [n]) _ : ExceptT Halt SerM Unit) = forM (_ ++ [_]) _
        rw [List.forM_append, List.forM_append]
        show (List.forM (List.range n) _ >>= fun _ => _) = (List.forM _ _ >>= fun _ => _)
        rw [ih (by omega)]
        refine congrArg (List.forM (sch.types.take n) writeType >>= ·) (funext fun _ => ?_)
        show ((load s.types n >>= fun typ => writeType typ : ExceptT Halt SerM Unit) >>= fun _ =>
          pure ()) = (writeType sch.types[n] >>= fun _ => pure ())
        rw [h.types_eq, load_filled hn]
        rfl
    rw [h.numCols_eq]
    exact (hall _ le_rfl).trans (by rw [List.take_length])
  rw [serialize, run_lift_bind, run_lift_bind, run_lift_bind, h.capCols_eq, hnum, h.numRows_eq]
  rw [← hloop, hnum]

theorem writeTypes_ok {types : List DataType} (h : ∀ t ∈ types, t ≠ .Field) :
    (types.forM writeType).run = (types.forM fun t => do
      let c ← t.typeToChar
      writeChar c : SerM Unit) >>= fun _ => pure (.ok ()) := by
  induction types with
  | nil => rfl
  | cons t types ih =>
    obtain ⟨c, hc⟩ := DataType.typeToChar_isSome (h t List.mem_cons_self)
    show (writeType t >>= fun _ => types.forM writeType).run = _
    rw [ExceptT.run_bind, run_writeType hc, bind_assoc]
    show (writeChar c >>= fun _ => (types.forM writeType).run) = _
    rw [ih fun t ht => h t (List.mem_cons_of_mem _ ht), ← bind_assoc]
    show _ = ((do
      let c ← (t.typeToChar : Option UInt8)
      writeChar c : SerM Unit) >>= fun _ => _) >>= _
    rw [hc]
    rfl

theorem writeTypes_exit {types : List DataType} (h : .Field ∈ types) {ser : Serializer}
    (hser : Sound ser) : ∃ ser', (types.forM writeType).run ser = some (.error .exit, ser') := by
  induction types generalizing ser with
  | nil => cases h
  | cons t types ih =>
    by_cases ht : t = .Field
    · subst ht
      exact ⟨ser, rfl⟩
    · obtain ⟨c, hc⟩ := DataType.typeToChar_isSome ht
      obtain ⟨ser₁, hwrite, hser₁, -⟩ := writes_writeLE 1 c.toNat ser hser
      obtain ⟨ser', hrest⟩ := ih ((List.mem_cons.mp h).resolve_left (Ne.symm ht)) hser₁
      refine ⟨ser', ?_⟩
      show (writeType t >>= fun _ => types.forM writeType).run ser = _
      rw [ExceptT.run_bind, run_writeType hc, bind_assoc]
      show (writeChar c ser).bind (fun p => (types.forM writeType).run p.2) = _
      rw [writeChar, hwrite]
      exact hrest

theorem reads_readType {cols : List DataType} {cap : Nat} (h : cols.length < cap) {t : DataType}
    (ht : t ≠ .Field) : Reads (readType (filled cols cap) cols.length).run (Schema.typeBytes t)
      (.ok (filled (cols ++ [t]) cap)) := by
  obtain ⟨c, hc⟩ := DataType.typeToChar_isSome ht
  rw [readType, run_lift_bind, Schema.typeBytes, hc]
  refine (reads_readChar c).map ?_
  rw [charToType_eq (DataType.charToType_typeToChar hc)]
  show Reads (store (filled cols cap) cols.length t : ExceptT Halt SerM _).run _ _
  rw [store_filled h]
  exact Reads.pure _

theorem reads_readTypes {cols : List DataType} {cap : Nat} (hfits : cols.length ≤ cap)
    (h : ∀ t ∈ cols, t ≠ .Field) :
    Reads ((List.range cols.length).foldlM readType (filled [] cap)).run
      (cols.flatMap Schema.typeBytes) (.ok (filled cols cap)) := by
  induction cols using List.reverseRecOn with
  | nil => exact Reads.pure _
  | append_singleton cols t ih =>
    rw [List.length_append, List.length_singleton] at hfits ⊢
    have hloop := ih (by omega) fun t' ht' => h t' (List.mem_append_left _ ht')
    rw [List.range_succ, List.foldlM_append, ExceptT.run_bind, List.flatMap_append,
      List.flatMap_singleton]
    refine hloop.bind ?_
    show Reads (readType (filled cols cap) cols.length >>= pure).run _ _
    rw [bind_pure]
    exact reads_readType hfits (h t (List.mem_append_right _ List.mem_cons_self))

/-- **What a schema is written as is read back**, cell by cell. -/
theorem reads_deserialize {s : SchemaObj} {sch : Schema} (h : Shows s sch)
    (htyped : ∀ t ∈ sch.types, t ≠ .Field) : Reads deserialize.run (Schema.bytes sch) (.ok s) := by
  have hnum : s.numCols = UInt64.ofNat sch.width := by
    rw [← h.numCols_eq, UInt64.ofNat_toNat]
  rw [deserialize, run_lift_bind]
  refine (reads_readSizeT _).bind ?_
  rw [run_lift_bind]
  refine (reads_readSizeT _).bind ?_
  rw [run_lift_bind]
  refine (reads_readSizeT _).bind ?_
  rw [← hnum, h.numCols_eq, alloc_of_lt h.alloc]
  show Reads (List.foldlM readType (filled [] sch.capCols.toNat) (List.range sch.types.length) >>=
    fun types => pure (⟨types, s.numCols, sch.capCols, sch.numRows⟩ : SchemaObj)).run _ _
  rw [ExceptT.run_bind]
  refine (reads_readTypes h.fits htyped).map ?_
  have hs : s = ⟨filled sch.types sch.capCols.toNat, s.numCols, sch.capCols, sch.numRows⟩ := by
    rw [← h.types_eq, ← h.capCols_eq, ← h.numRows_eq]
  rw [hs]
  exact Reads.pure _

theorem onSerializer_ok {α : Type} {m : ExceptT Halt SerM α} {s s' : Serializer} {a : α}
    (h : m.run s = some (.ok a, s')) : onSerializer m s = .ok (a, s') := by
  rw [onSerializer, h]

theorem bind_eq {α β : Type} {m : SerM α} {k : α → SerM β} {s s' : Serializer} {a : α}
    {r : Option (β × Serializer)} (hm : m s = some (a, s')) (hk : k a s' = r) :
    (m >>= k) s = r := by
  show (m s).bind (fun p => k p.1 p.2) = r
  rw [hm]
  exact hk

/-- **A schema whose types all have letters is sent as it is**; another one ends the program. -/
theorem Shows.transfer {s : SchemaObj} {sch : Schema} (h : Shows s sch) :
    if ∀ t ∈ sch.types, t ≠ .Field then s.transfer = .ok s else s.transfer = .error .exit := by
  have hserialize := run_serialize h
  by_cases htyped : ∀ t ∈ sch.types, t ≠ .Field
  · rw [if_pos htyped]
    have hrun : s.serialize.run = (Schema.serialize sch >>= fun _ => pure (.ok ())) := by
      rw [hserialize, writeTypes_ok htyped]
      simp only [Schema.serialize, bind_assoc]
    obtain ⟨ser, hwrite, -, hwritten, -⟩ :=
      Schema.writes_serialize ⟨h.fits, htyped⟩ Serializer.new sound_new
    have hbuffer : ser.buffer = [] ++ Schema.bytes sch := hwritten
    obtain ⟨ser', hread, -⟩ :=
      reads_deserialize h htyped (Serializer.ofBytes (Schema.bytes sch)) [] (List.append_nil _).symm
    have hser : onSerializer s.serialize Serializer.new = .ok ((), ser) := by
      refine onSerializer_ok ?_
      rw [hrun]
      show (Schema.serialize sch Serializer.new).bind _ = _
      rw [hwrite]
      rfl
    rw [SchemaObj.transfer, hser]
    show Except.bind (onSerializer deserialize (Serializer.ofBytes ser.buffer)) _ = _
    rw [hbuffer, List.nil_append, onSerializer_ok hread]
    rfl
  · rw [if_neg htyped]
    push Not at htyped
    obtain ⟨t, ht, rfl⟩ := htyped
    obtain ⟨ser₁, h₁, hs₁, -⟩ := writes_writeLE 8 sch.capCols.toNat Serializer.new sound_new
    obtain ⟨ser₂, h₂, hs₂, -⟩ := writes_writeLE 8 (UInt64.ofNat sch.width).toNat ser₁ hs₁
    obtain ⟨ser₃, h₃, hs₃, -⟩ := writes_writeLE 8 sch.numRows.toNat ser₂ hs₂
    obtain ⟨ser', hexit⟩ := writeTypes_exit ht hs₃
    have hrun : s.serialize.run Serializer.new = some (.error .exit, ser') := by
      rw [hserialize]
      exact bind_eq h₁ (bind_eq h₂ (bind_eq h₃ hexit))
    rw [SchemaObj.transfer, onSerializer, hrun]
    rfl

end SchemaObj

end Eau2
