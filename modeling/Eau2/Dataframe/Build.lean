import Eau2.Base.Schedule
import Eau2.Dataframe.Visit

/-!
# Building a dataframe

`DataFrame::add_array`, `add_column` and `visit`, in any order, on a dataframe from one of
the constructors.  The row count is kept in the schema: `add_array` adds the length of
every array to it, `add_column` asks for a column of that length, and `visit` adds the
rows of a chunk once for all columns.

* `addAll_spec`, `visit_grows`: what a call does to the sizes.
* `even_iff`: **all columns have as many elements as the dataframe has rows, after every
  call, exactly when every array is the first thing in its dataframe.**
* `storage_roundtrip`: **a dataframe comes back from its bytes**, however it was built, and
  so does a block, whatever it is read into.
-/

namespace Eau2

open Bytes Serializer Tape

namespace DataFrame

/-- A call that adds to a dataframe. -/
inductive Call : Type 1
  /-- `add_array` for one of the four types. -/
  | addArray (t : DataType) (ht : t ≠ .Field) (elements : List Cell)
  | addColumn (col : Column)
  | visit {σ : Type} (wr : Writer σ) (fuel : Nat) (s : σ)

/-- `add_column`; a column of another length exits. -/
def addColumn (col : Column) (df : DataFrame) : Option DataFrame :=
  if col.size = df.nrows then do
    let type ← col.type.typeToChar
    let schema ← df.schema.addColumnChar type
    pure ⟨df.columns ++ [col], schema, df.key⟩
  else none

/-- What a call makes of a dataframe; what it puts into the store is left out. -/
def call (args : Args) (df : DataFrame) : Call → Option DataFrame
  | .addArray t _ elements => (df.addArray args t elements).map Prod.fst
  | .addColumn col => df.addColumn col
  | .visit wr fuel s => (df.visit args wr fuel s).map Prod.fst

inductive Fresh : DataFrame → Prop
  | ofKey (k : Key) : Fresh (ofKey k)
  /-- `strlen(scm)` is a `size_t`. -/
  | ofTypes {scm : Str} {k : Key} {df : DataFrame} : scm.length < 2 ^ 64 →
    ofTypes scm k = some df → Fresh df

end DataFrame

/-! ### Sizes -/

namespace Column

theorem addLoop_length {args : Args} {vals : List Cell} {before colIdx fuel lenAdded total : Nat}
    {block : Block} {col col' : Column} {puts : List Put} (hle : lenAdded ≤ vals.length)
    (h : addLoop args vals before colIdx fuel lenAdded block col = some (col', puts, total)) :
    total = vals.length ∧ col'.size = col.size ∧ col'.type = col.type := by
  induction fuel generalizing lenAdded block col puts with
  | zero => cases h
  | succ fuel ih =>
    rw [addLoop] at h
    split at h
    · obtain ⟨⟨col₁, put⟩, hadd, h₁⟩ := Option.bind_eq_some_iff.mp h
      obtain ⟨⟨col₂, puts₂, total₂⟩, hrec, h₂⟩ := Option.bind_eq_some_iff.mp h₁
      cases h₂
      obtain ⟨htotal, hsize, htype⟩ := ih (by omega) hrec
      obtain ⟨k, -, h₃⟩ := Option.bind_eq_some_iff.mp hadd
      obtain ⟨val, -, h₄⟩ := Option.bind_eq_some_iff.mp h₃
      cases h₄
      exact ⟨htotal, hsize, htype⟩
    · cases h
      exact ⟨by omega, rfl, rfl⟩

theorem addAll_spec {args : Args} {t : DataType} {vals : List Cell} {colIdx : Nat}
    {col col' : Column} {puts : List Put}
    (h : addAll args t vals colIdx col = some (col', puts)) :
    col'.size = col.size + UInt64.ofNat vals.length ∧ col'.type = col.type ∧ col.type = t := by
  obtain ⟨ht, h₁⟩ := Option.ite_none_right_eq_some.mp h
  obtain ⟨⟨col₁, puts₁, total⟩, hloop, h₂⟩ := Option.bind_eq_some_iff.mp h₁
  cases h₂
  obtain ⟨rfl, hsize, htype⟩ := addLoop_length (Nat.zero_le _) hloop
  refine ⟨?_, htype, ht⟩
  show col₁.size + _ = _
  rw [hsize]

end Column

namespace Schema

theorem addColumn_eq_some {s s' : Schema} {t : DataType} (h : s.addColumn t = some s') :
    s'.types = s.types ++ [t] ∧ s'.numRows = s.numRows ∧ (s.Ok → t ≠ .Field → s'.Ok) := by
  have key : ∀ {s₁ : Schema}, (if s₁.width < s₁.capCols.toNat then
      some { s₁ with types := s₁.types ++ [t] } else none) = some s' →
      s'.types = s₁.types ++ [t] ∧ s'.numRows = s₁.numRows ∧
        ((∀ t ∈ s₁.types, t ≠ .Field) → t ≠ .Field → s'.Ok) := by
    intro s₁ h₁
    obtain ⟨hlt, he⟩ := Option.ite_none_right_eq_some.mp h₁
    cases he
    refine ⟨rfl, rfl, fun htyped ht => ⟨?_, ?_⟩⟩
    · show (s₁.types ++ [t]).length ≤ _
      rw [List.length_append]
      exact hlt
    · exact List.forall_mem_append.mpr ⟨htyped, List.forall_mem_singleton.mpr ht⟩
  rw [addColumn] at h
  split at h
  · obtain ⟨htypes, hrows, hok⟩ := key h
    exact ⟨htypes, hrows, fun hs => hok hs.typed⟩
  · obtain ⟨htypes, hrows, hok⟩ := key h
    exact ⟨htypes, hrows, fun hs => hok hs.typed⟩

end Schema

namespace DataFrame

variable {args : Args} {df df' : DataFrame}

/-- Every column of `df'` has `k` elements more, and so has the row count. -/
structure Grows (k : SizeT) (df df' : DataFrame) : Prop where
  columns : List.Forall₂ (fun c c' : Column => c'.size = c.size + k ∧ c'.type = c.type)
    df.columns df'.columns
  nrows : df'.nrows = df.nrows + k
  types : df'.schema.types = df.schema.types
  capCols : df'.schema.capCols = df.schema.capCols

theorem Grows.refl (df : DataFrame) : Grows 0 df df where
  columns := List.forall₂_same.mpr fun _ _ => ⟨(UInt64.add_zero _).symm, rfl⟩
  nrows := (UInt64.add_zero _).symm
  types := rfl
  capCols := rfl

theorem Grows.trans {k l : SizeT} {df'' : DataFrame} (h : Grows k df df') (h' : Grows l df' df'') :
    Grows (k + l) df df'' where
  columns := by
    refine List.forall₂_iff_get.mpr ⟨h.columns.length_eq.trans h'.columns.length_eq, ?_⟩
    intro i hi hi''
    have hi' : i < df'.columns.length := by rwa [← h.columns.length_eq]
    obtain ⟨hs, ht⟩ := (List.forall₂_iff_get.mp h.columns).2 i hi hi'
    obtain ⟨hs', ht'⟩ := (List.forall₂_iff_get.mp h'.columns).2 i hi' hi''
    exact ⟨by rw [hs', hs, UInt64.add_assoc], ht'.trans ht⟩
  nrows := by rw [h'.nrows, h.nrows, UInt64.add_assoc]
  types := h'.types.trans h.types
  capCols := h'.capCols.trans h.capCols

theorem addArray_eq_some {t : DataType} {elements : List Cell} {puts : List Put}
    (h : df.addArray args t elements = some (df', puts)) : ∃ c : Column,
      df'.columns = df.columns ++ [c] ∧ c.size = UInt64.ofNat elements.length ∧ c.type = t ∧
      df'.nrows = df.nrows + UInt64.ofNat elements.length ∧ df'.key = df.key ∧
      df'.schema.types = df.schema.types ++ [t] ∧
      (df.schema.Ok → t ≠ .Field → df'.schema.Ok) := by
  obtain ⟨baseKey, -, h₁⟩ := Option.bind_eq_some_iff.mp h
  obtain ⟨⟨c, puts₁⟩, hadd, h₂⟩ := Option.bind_eq_some_iff.mp h₁
  obtain ⟨schema, hschema, h₃⟩ := Option.bind_eq_some_iff.mp h₂
  cases h₃
  obtain ⟨hsize, htype, -⟩ := Column.addAll_spec hadd
  obtain ⟨htypes, hrows, hok⟩ := Schema.addColumn_eq_some hschema
  refine ⟨c, rfl, ?_, htype, ?_, rfl, htypes, fun hs ht => ?_⟩
  · rw [hsize]
    exact UInt64.zero_add _
  · show schema.numRows + _ = _
    rw [hrows]
    rfl
  · exact ⟨(hok hs ht).fits, (hok hs ht).typed⟩

theorem addColumn_eq_some {col : Column} (h : df.addColumn col = some df') :
    col.size = df.nrows ∧ col.type ≠ .Field ∧ df'.columns = df.columns ++ [col] ∧
      df'.nrows = df.nrows ∧ df'.key = df.key ∧ df'.schema.types = df.schema.types ++ [col.type] ∧
      (df.schema.Ok → df'.schema.Ok) := by
  obtain ⟨hsize, h₁⟩ := Option.ite_none_right_eq_some.mp h
  obtain ⟨c, hc, h₂⟩ := Option.bind_eq_some_iff.mp h₁
  obtain ⟨schema, hschema, h₃⟩ := Option.bind_eq_some_iff.mp h₂
  cases h₃
  obtain ⟨t, ht, hadd⟩ := Option.bind_eq_some_iff.mp hschema
  rw [DataType.charToType_typeToChar hc] at ht
  cases ht
  have hfield : col.type ≠ .Field :=
    DataType.ne_field_of_charToType (DataType.charToType_typeToChar hc)
  obtain ⟨htypes, hrows, hok⟩ := Schema.addColumn_eq_some hadd
  exact ⟨hsize, hfield, rfl, hrows, rfl, htypes, fun hs => hok hs hfield⟩

theorem chunkColumns_length {rowChunk : List Row} {n : Nat} (hn : n ≤ rowChunk.length)
    {types : List DataType} {i : Nat} {columns columns' : List Column} {puts : List Put}
    (hlen : columns.length = types.length)
    (h : chunkColumns args rowChunk n i types columns = some (columns', puts)) :
    List.Forall₂ (fun c c' : Column => c'.size = c.size + UInt64.ofNat n ∧ c'.type = c.type)
      columns columns' := by
  induction types generalizing i columns columns' puts with
  | nil =>
    cases List.eq_nil_of_length_eq_zero hlen
    cases h
    exact List.Forall₂.nil
  | cons t types ih =>
    cases columns with
    | nil => cases hlen
    | cons c columns =>
      obtain ⟨vals, hvals, h₁⟩ := Option.bind_eq_some_iff.mp h
      obtain ⟨⟨c', puts₁⟩, hadd, h₂⟩ := Option.bind_eq_some_iff.mp h₁
      obtain ⟨⟨cs', puts₂⟩, hrec, h₃⟩ := Option.bind_eq_some_iff.mp h₂
      cases h₃
      obtain ⟨hsize, htype, -⟩ := Column.addAll_spec hadd
      have hn' : vals.length = n := by
        rw [← length_of_mapM hvals, List.length_take]
        omega
      rw [hn'] at hsize
      exact List.Forall₂.cons ⟨hsize, htype⟩ (ih (Nat.succ.inj hlen) hrec)

theorem addRowChunk_grows {rowChunk : List Row} {n : Nat} {puts : List Put}
    (hlen : df.columns.length = df.schema.width)
    (h : df.addRowChunk_ args rowChunk n = some (df', puts)) :
    Grows (UInt64.ofNat n) df df' ∧ df'.key = df.key := by
  obtain ⟨hn, h₁⟩ := Option.ite_none_right_eq_some.mp h
  obtain ⟨⟨columns, puts₁⟩, hcols, h₂⟩ := Option.bind_eq_some_iff.mp h₁
  cases h₂
  exact ⟨⟨chunkColumns_length hn hlen hcols, rfl, rfl, rfl⟩, rfl⟩

theorem Grows.width {k : SizeT} (h : Grows k df df') (hlen : df.columns.length = df.schema.width) :
    df'.columns.length = df'.schema.width := by
  rw [← h.columns.length_eq, hlen, Schema.width, Schema.width, h.types]

/-- What holds of nothing, of a chunk of rows, and of one behind the other, holds of the loop
of `visit`. -/
theorem visitLoop_rule {R : List Put → DataFrame → DataFrame → Prop} (hnil : ∀ df, R [] df df)
    (htrans : ∀ {puts puts' df₀ df₁ df₂}, R puts df₀ df₁ → R puts' df₁ df₂ →
      R (puts ++ puts') df₀ df₂)
    (hchunk : ∀ {rowChunk n df df' puts},
      addRowChunk_ args rowChunk n df = some (df', puts) → R puts df df')
    {σ : Type} {wr : Writer σ} {fuel : Nat} {s : σ} {rowChunk : List Row} {idx : Nat}
    {rowIdx : SizeT} {puts : List Put}
    (h : visitLoop args wr fuel s rowChunk idx rowIdx df = some (df', puts)) : R puts df df' := by
  induction fuel generalizing s rowChunk idx rowIdx df puts with
  | zero => cases h
  | succ fuel ih =>
    obtain ⟨⟨done, s₁⟩, -, h₁⟩ := Option.bind_eq_some_iff.mp h
    dsimp only at h₁
    split at h₁
    · split at h₁
      · exact hchunk h₁
      · cases h₁
        exact hnil _
    · obtain ⟨⟨rowChunk₁, idx₁, df₁, puts₁⟩, hflush, h₂⟩ := Option.bind_eq_some_iff.mp h₁
      obtain ⟨row, -, h₃⟩ := Option.bind_eq_some_iff.mp h₂
      obtain ⟨⟨s₂, row₁⟩, -, h₄⟩ := Option.bind_eq_some_iff.mp h₃
      obtain ⟨⟨df₂, puts₂⟩, hrec, h₅⟩ := Option.bind_eq_some_iff.mp h₄
      cases h₅
      refine htrans ?_ (ih hrec)
      unfold flush at hflush
      split at hflush
      · obtain ⟨⟨df₃, puts₃⟩, hadd, h₆⟩ := Option.bind_eq_some_iff.mp hflush
        cases h₆
        exact hchunk hadd
      · cases hflush
        exact hnil _

theorem visitLoop_grows {σ : Type} {wr : Writer σ} {fuel : Nat} {s : σ} {rowChunk : List Row}
    {idx : Nat} {rowIdx : SizeT} {puts : List Put} (hlen : df.columns.length = df.schema.width)
    (h : visitLoop args wr fuel s rowChunk idx rowIdx df = some (df', puts)) :
    ∃ k, Grows k df df' ∧ df'.key = df.key := by
  refine visitLoop_rule (R := fun _ df df' => df.columns.length = df.schema.width →
    ∃ k, Grows k df df' ∧ df'.key = df.key) (fun df _ => ⟨0, Grows.refl df, rfl⟩) ?_ ?_ h hlen
  · intro _ _ df₀ df₁ df₂ h₁ h₂ hlen
    obtain ⟨k, hk, hkey⟩ := h₁ hlen
    obtain ⟨l, hl, hkey'⟩ := h₂ (hk.width hlen)
    exact ⟨k + l, hk.trans hl, hkey'.trans hkey⟩
  · intro _ _ _ _ _ hadd hlen
    exact ⟨_, addRowChunk_grows hlen hadd⟩

theorem visit_grows {σ : Type} {wr : Writer σ} {fuel : Nat} {s : σ} {puts : List Put}
    (hlen : df.columns.length = df.schema.width)
    (h : df.visit args wr fuel s = some (df', puts)) : ∃ k, Grows k df df' ∧ df'.key = df.key := by
  obtain ⟨row, -, h₁⟩ := Option.bind_eq_some_iff.mp h
  exact visitLoop_grows hlen h₁

/-! ### Rows and columns -/

/-- The columns are the schema's, and each has one of the four types. -/
structure Intact (df : DataFrame) : Prop where
  schema : df.schema.Ok
  length : df.columns.length = df.schema.width
  typed : ∀ col ∈ df.columns, col.type ≠ .Field

theorem Fresh.intact (h : Fresh df) : Intact df := by
  cases h with
  | ofKey k => exact ⟨Schema.ok_new, rfl, fun col hc => by cases hc⟩
  | @ofTypes scm k df hlen h =>
    obtain ⟨schema, hschema, h₁⟩ := Option.bind_eq_some_iff.mp h
    obtain ⟨types, htypes, h₂⟩ := Option.bind_eq_some_iff.mp h₁
    cases h₂
    obtain ⟨s, hs, hok, htypes', -⟩ := Schema.ofTypes_spec hlen htypes
    cases hschema.symm.trans hs
    refine ⟨hok, ?_, ?_⟩
    · show (types.map _).length = schema.types.length
      rw [List.length_map, htypes']
    · intro col hc
      obtain ⟨t, ht, rfl⟩ := List.mem_map.mp hc
      exact hok.typed t (by rwa [htypes'])

theorem Grows.intact {k : SizeT} (hk : Grows k df df') (h : Intact df) : Intact df' := by
  refine ⟨⟨?_, ?_⟩, hk.width h.length, ?_⟩
  · rw [Schema.width, hk.types, hk.capCols]
    exact h.schema.fits
  · rw [hk.types]
    exact h.schema.typed
  · intro col hc
    obtain ⟨i, hi, rfl⟩ := List.mem_iff_getElem.mp hc
    have hi' : i < df.columns.length := by rwa [hk.columns.length_eq]
    have ht := ((List.forall₂_iff_get.mp hk.columns).2 i hi' hi).2
    rw [List.get_eq_getElem, List.get_eq_getElem] at ht
    rw [ht]
    exact h.typed _ (List.getElem_mem hi')

theorem Intact.append (h : Intact df) {c : Column} (hc : df'.columns = df.columns ++ [c])
    (ht : df'.schema.types = df.schema.types ++ [c.type]) (hs : df'.schema.Ok)
    (hfield : c.type ≠ .Field) : Intact df' := by
  refine ⟨hs, ?_, ?_⟩
  · rw [hc, Schema.width, ht, List.length_append, List.length_append, h.length]
    rfl
  · rw [hc]
    exact List.forall_mem_append.mpr ⟨h.typed, List.forall_mem_singleton.mpr hfield⟩

theorem call_intact {c : Call} (h : Intact df) (hc : df.call args c = some df') :
    Intact df' ∧ df'.key = df.key := by
  cases c with
  | addArray t ht elements =>
    obtain ⟨⟨df₁, puts⟩, hadd, he⟩ := Option.map_eq_some_iff.mp hc
    cases he
    obtain ⟨c, hcols, -, htype, -, hkey, htypes, hok⟩ := addArray_eq_some hadd
    subst htype
    exact ⟨h.append hcols htypes (hok h.schema ht) ht, hkey⟩
  | addColumn col =>
    obtain ⟨-, hfield, hcols, -, hkey, htypes, hok⟩ := addColumn_eq_some hc
    exact ⟨h.append hcols htypes (hok h.schema) hfield, hkey⟩
  | visit wr fuel s =>
    obtain ⟨⟨df₁, puts⟩, hvisit, he⟩ := Option.map_eq_some_iff.mp hc
    cases he
    obtain ⟨k, hk, hkey⟩ := visit_grows h.length hvisit
    exact ⟨hk.intact h, hkey⟩

theorem run_intact {df₀ : DataFrame} (h₀ : Fresh df₀) {cs : List Call}
    (h : Schedule.run (call args) df₀ cs = some df) : Intact df :=
  Schedule.run_induction (P := fun _ df => Intact df) h₀.intact
    (fun _ _ _ _ _ ih hc => (call_intact ih hc).1) h

def Even (df : DataFrame) : Prop := ∀ col ∈ df.columns, col.size = df.nrows

instance (df : DataFrame) : Decidable (Even df) :=
  inferInstanceAs (Decidable (∀ col ∈ df.columns, col.size = df.nrows))

theorem Fresh.even (h : Fresh df) : Even df := by
  cases h with
  | ofKey k => intro col hc; cases hc
  | @ofTypes scm k df hlen h =>
    obtain ⟨schema, hschema, h₁⟩ := Option.bind_eq_some_iff.mp h
    obtain ⟨types, htypes, h₂⟩ := Option.bind_eq_some_iff.mp h₁
    cases h₂
    obtain ⟨s, hs, -, -, hrows⟩ := Schema.ofTypes_spec hlen htypes
    cases hschema.symm.trans hs
    intro col hc
    obtain ⟨t, -, rfl⟩ := List.mem_map.mp hc
    exact hrows.symm

theorem Grows.even {k : SizeT} (hk : Grows k df df') (h : Even df) : Even df' := by
  intro col hc
  obtain ⟨i, hi, rfl⟩ := List.mem_iff_getElem.mp hc
  have hi' : i < df.columns.length := by rwa [hk.columns.length_eq]
  have hs := ((List.forall₂_iff_get.mp hk.columns).2 i hi' hi).1
  rw [List.get_eq_getElem, List.get_eq_getElem] at hs
  rw [hs, hk.nrows, h _ (List.getElem_mem hi')]

/-- The call is no `add_array`, or one that is the first to bring rows or columns. -/
def opens (df : DataFrame) : Call → Bool
  | .addArray _ _ elements =>
    df.nrows == 0 && (df.columns.isEmpty || UInt64.ofNat elements.length == 0)
  | _ => true

/-- **An array evens out with the columns and the rows that are there only where there are
none.** -/
theorem even_addArray_iff {t : DataType} {elements : List Cell} {puts : List Put} (h : Even df)
    (ha : df.addArray args t elements = some (df', puts)) : Even df' ↔
      df.nrows = 0 ∧ (df.columns = [] ∨ UInt64.ofNat elements.length = 0) := by
  obtain ⟨c, hcols, hsize, -, hrows, -⟩ := addArray_eq_some ha
  -- the new column counts as `n`, the rows as `n` more than before
  have hnew : UInt64.ofNat elements.length = df.nrows + UInt64.ofNat elements.length ↔
      df.nrows = 0 := by
    rw [eq_comm, add_eq_right]
  have hold : ∀ col ∈ df.columns, col.size = df.nrows + UInt64.ofNat elements.length ↔
      UInt64.ofNat elements.length = 0 := by
    intro col hc
    rw [h col hc, eq_comm, add_eq_left]
  unfold Even
  rw [hcols, hrows, List.forall_mem_append, List.forall_mem_singleton, hsize, hnew, and_comm]
  refine and_congr_right fun _ => ?_
  constructor
  · intro hall
    cases hdf : df.columns with
    | nil => exact Or.inl rfl
    | cons col columns =>
      have hmem : col ∈ df.columns := by rw [hdf]; exact List.mem_cons_self
      exact Or.inr ((hold col hmem).mp (hall col hmem))
  · rintro (hnil | hzero) col hc
    · rw [hnil] at hc
      cases hc
    · exact (hold col hc).mpr hzero

theorem even_call_iff {c : Call} (hi : Intact df) (h : Even df)
    (hc : df.call args c = some df') : Even df' ↔ df.opens c = true := by
  cases c with
  | addArray t ht elements =>
    obtain ⟨⟨df₁, puts⟩, hadd, he⟩ := Option.map_eq_some_iff.mp hc
    cases he
    rw [even_addArray_iff h hadd, opens, Bool.and_eq_true_iff, Bool.or_eq_true_iff, beq_iff_eq,
      beq_iff_eq, List.isEmpty_iff]
  | addColumn col =>
    obtain ⟨hsize, -, hcols, hrows, -⟩ := addColumn_eq_some hc
    refine iff_of_true ?_ rfl
    unfold Even
    rw [hcols, hrows]
    exact List.forall_mem_append.mpr ⟨h, List.forall_mem_singleton.mpr hsize⟩
  | visit wr fuel s =>
    obtain ⟨⟨df₁, puts⟩, hvisit, he⟩ := Option.map_eq_some_iff.mp hc
    cases he
    obtain ⟨k, hk, -⟩ := visit_grows hi.length hvisit
    exact iff_of_true (hk.even h) rfl

/-- Every array of the calls is the first thing in its dataframe. -/
def Opening (args : Args) (df₀ : DataFrame) (cs : List Call) : Prop :=
  Schedule.always (call args) opens df₀ cs = true

theorem even_run {df₀ : DataFrame} (h₀ : Fresh df₀) {cs : List Call}
    (h : Schedule.run (call args) df₀ cs = some df) (ho : Opening args df₀ cs) : Even df := by
  refine Schedule.run_induction (P := fun cs df => Opening args df₀ cs → Even df)
    (fun _ => h₀.even) ?_ h ho
  intro cs df c df' hr ih hc ho
  rw [Opening, Schedule.always_snoc hr, Bool.and_eq_true_iff] at ho
  exact (even_call_iff (run_intact h₀ hr) (ih ho.1) hc).mpr ho.2

/-- **All columns have one length.** After every call all columns have as many elements as
the dataframe has rows, exactly when every array is the first thing in its dataframe. -/
theorem even_iff {df₀ : DataFrame} (h₀ : Fresh df₀) {cs : List Call}
    (h : Schedule.run (call args) df₀ cs = some df) :
    (∀ cs₁ df₁, cs₁ <+: cs → Schedule.run (call args) df₀ cs₁ = some df₁ → Even df₁) ↔
      Opening args df₀ cs := by
  constructor
  · refine Schedule.run_induction (P := fun cs _ => (∀ cs₁ df₁, cs₁ <+: cs →
      Schedule.run (call args) df₀ cs₁ = some df₁ → Even df₁) → Opening args df₀ cs)
      (fun _ => rfl) ?_ h
    intro cs df c df' hr ih hc hall
    have ho : Opening args df₀ cs :=
      ih fun cs₁ df₁ hpre => hall cs₁ df₁ (hpre.trans (List.prefix_append cs [c]))
    rw [Opening, Schedule.always_snoc hr, Bool.and_eq_true_iff]
    have hlast := hall (cs ++ [c]) df' (List.prefix_refl _) (Schedule.run_snoc.mpr ⟨df, hr, hc⟩)
    exact ⟨ho, (even_call_iff (run_intact h₀ hr) (even_run h₀ hr ho) hc).mp hlast⟩
  · intro ho cs₁ df₁ hpre hr
    obtain ⟨us, rfl⟩ := hpre
    rw [Opening, Schedule.always_append hr, Bool.and_eq_true_iff] at ho
    exact even_run h₀ hr ho.1

/-- A column of two elements, filled as column 1. -/
def twoBools : Column :=
  Column.filled ⟨2, 1⟩ ⟨⟨[98], CStr.nulFree_b⟩, 0⟩ .Boolean 1 [.bool true, .bool false]

/-- An array of two elements, and the column behind it. -/
theorem even_iff_two : ∃ df, Schedule.run (call ⟨2, 1⟩) (ofKey ⟨⟨[97], by decide⟩, 0⟩)
      [.addArray .Integer (by decide) [.int 4, .int 5], .addColumn twoBools] = some df ∧
    Even df := by
  have hrun : (Schedule.run (call ⟨2, 1⟩) (ofKey ⟨⟨[97], by decide⟩, 0⟩)
      [.addArray .Integer (by decide) [.int 4, .int 5], .addColumn twoBools]).isSome = true := by
    decide +kernel
  obtain ⟨df, hdf⟩ := Option.isSome_iff_exists.mp hrun
  exact ⟨df, hdf, (even_iff (.ofKey _) hdf).mpr (by unfold Opening; decide +kernel) _ df
    (List.prefix_refl _) hdf⟩

/-- Two arrays of one element each make two rows. -/
theorem uneven : ¬ ∀ (args : Args) (df₀ df : DataFrame) (cs : List Call) (n : Nat), Fresh df₀ →
    (∀ t ht elements, Call.addArray t ht elements ∈ cs → elements.length = n) →
    Schedule.run (call args) df₀ cs = some df → Even df := by
  intro h
  have hrun : (Schedule.run (call ⟨2, 1⟩) (ofKey ⟨⟨[97], by decide⟩, 0⟩)
      [.addArray .Integer (by decide) [.int 4], .addArray .Boolean (by decide) [.bool true]]).any
      (fun df => decide (¬ Even df)) = true := by
    decide +kernel
  obtain ⟨df, hdf, hne⟩ := (Option.any_eq_true _ _).mp hrun
  refine of_decide_eq_true hne (h ⟨2, 1⟩ _ df _ 1 (.ofKey _) ?_ hdf)
  intro t ht elements hmem
  rcases List.mem_cons.mp hmem with he | hmem
  · cases he
    rfl
  · cases List.mem_singleton.mp hmem
    rfl

/-! ### There and back -/

/-- Two columns that stand for the same elements in the store. -/
structure SameColumn (c c' : Column) : Prop where
  size : c.size = c'.size
  type : c.type = c'.type
  baseKey : c.baseKey = c'.baseKey
  keyList : c.blocks.keyList = c'.blocks.keyList

/-- Two dataframes that differ in what they have read at most. -/
structure SameFrame (df df' : DataFrame) : Prop where
  ncols : df.columns.length = df'.columns.length
  columns : List.Forall₂ SameColumn df.columns df'.columns
  types : df.schema.types = df'.schema.types
  nrows : df.nrows = df'.nrows
  key : df.key = df'.key

/-- **An intact dataframe comes back from its bytes.** -/
theorem Intact.roundtrip (h : Intact df) (hk : ∀ col ∈ df.columns, col.blocks.length < 2 ^ 64) :
    ∃ bs df', Writes df.serialize bs ∧ Reads deserialize bs df' ∧ SameFrame df' df := by
  have hlen : df.columns.length < 2 ^ 64 := by
    rw [h.length]
    exact Schema.width_lt h.schema
  refine ⟨df.bytes, _, writes_serialize h.schema h.typed,
    reads_deserialize_uncached h.schema hlen fun col hc => ⟨h.typed col hc, hk col hc⟩, ?_⟩
  refine ⟨List.length_map _, ?_, rfl, rfl, rfl⟩
  exact List.forall₂_map_left_iff.mpr (List.forall₂_same.mpr fun col _ => ⟨rfl, rfl, rfl, rfl⟩)

/-- **The storage round trip**: for every dataframe that was built by any calls, and for
every block that holds no more than its capacity, of its type, read into any block of that
class.  A `KeyArr` has a `size_t` for its length. -/
theorem storage_roundtrip (args : Args) :
    (∀ (df₀ df : DataFrame) (cs : List Call), Fresh df₀ →
      Schedule.run (call args) df₀ cs = some df →
      (∀ col ∈ df.columns, col.blocks.length < 2 ^ 64) →
      ∃ bs df', Writes df.serialize bs ∧ Reads deserialize bs df' ∧ SameFrame df' df) ∧
    ∀ b old : Block, b.Ok → old.type = b.type →
      ∃ bs, Writes b.serialize bs ∧ Reads old.load bs b := by
  constructor
  · intro df₀ df cs h₀ hrun hk
    exact (run_intact h₀ hrun).roundtrip hk
  · intro b old hb ht
    exact ⟨b.bytes, b.writes_serialize, Block.reads_load hb ht⟩

/-- An array of two strings, and a full block read into one of another size. -/
theorem storage_roundtrip_two :
    (∃ df bs df', Schedule.run (call ⟨2, 1⟩) (ofKey ⟨⟨[97], by decide⟩, 0⟩)
        [.addArray .Str (by decide) [.str ⟨[98], by decide⟩, .str ⟨[], by decide⟩]] = some df ∧
      Writes df.serialize bs ∧ Reads deserialize bs df' ∧ SameFrame df' df) ∧
    ∃ bs, Writes (Block.mk .Integer 2 [.int 4, .int 5]).serialize bs ∧
      Reads (Block.mk .Integer 7 [.int 1]).load bs (Block.mk .Integer 2 [.int 4, .int 5]) := by
  constructor
  · have hrun : (Schedule.run (call ⟨2, 1⟩) (ofKey ⟨⟨[97], by decide⟩, 0⟩)
        [.addArray .Str (by decide) [.str ⟨[98], by decide⟩, .str ⟨[], by decide⟩]]).any
        (fun df => decide (∀ col ∈ df.columns, col.blocks.length < 2 ^ 64)) = true := by
      decide +kernel
    obtain ⟨df, hdf, hk⟩ := (Option.any_eq_true _ _).mp hrun
    obtain ⟨bs, df', hw, hr, hs⟩ :=
      (storage_roundtrip ⟨2, 1⟩).1 _ df _ (.ofKey _) hdf (of_decide_eq_true hk)
    exact ⟨df, bs, df', hdf, hw, hr, hs⟩
  · exact (storage_roundtrip ⟨2, 1⟩).2 _ _ ⟨by decide, by decide⟩ rfl

end DataFrame

end Eau2
