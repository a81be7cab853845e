import Eau2.Dataframe.DataToDf

/-!
# Going over the rows of a dataframe

`DataFrame::map` and `local_map`.  `local_map` visits the blocks that live on its node:
at a row of another node it skips a whole block, which is right at the first row of a
block only, and adds `args.blockSize` to a counter that may overflow.

The rows it visits are `localIdxs`, a loop of its own.

* `localMapLoop_eq`: the reader is run on the rows `localIdxs` goes over.
* `mem_localIdxs`: when the loop ends, it has gone over the node's rows, whatever the
  counter did.
* `nodup_localIdxs`: and each of them once.
* `localIdxs_eq`: without an overflow it goes over each once, in order.
-/

namespace Eau2

/-- A subclass of `Reader`, over the state of its objects; what `visit` answers is not used. -/
abbrev Reader (ρ : Type) := ρ → Row → Option ρ

namespace DataFrame

def setRowValByColType_ (args : Args) (store : Store) (r : Row) (colIdx rowIdx : Nat)
    (colType : DataType) (df : DataFrame) : Option (Row × DataFrame) := do
  let (cell, df) ← df.get args store colType colIdx rowIdx
  let r ← r.set colIdx cell
  pure (r, df)

def fillCol (args : Args) (store : Store) (rowIdx : Nat) (p : Row × DataFrame) (colIdx : Nat) :
    Option (Row × DataFrame) := do
  let t ← p.2.schema.colType colIdx
  setRowValByColType_ args store p.1 colIdx rowIdx t p.2

/-- What `map` and `local_map` do with one row: `row` has nothing set, before and after. -/
def visitRow {ρ : Type} (args : Args) (store : Store) (row : Row) (rd : Reader ρ)
    (p : ρ × DataFrame) (rowIdx : Nat) : Option (ρ × DataFrame) := do
  let (r, df) ← (List.range row.width).foldlM (fillCol args store rowIdx)
    (row.setIdx (UInt64.ofNat rowIdx), p.2)
  let s ← rd p.1 r
  pure (s, df)

def mapRange {ρ : Type} (args : Args) (store : Store) (rd : Reader ρ) (startIdx endIdx : Nat)
    (p : ρ × DataFrame) : Option (ρ × DataFrame) := do
  let row ← Row.new p.2.schema
  (List.range' startIdx (endIdx - startIdx)).foldlM (visitRow args store row rd) p

def map {ρ : Type} (args : Args) (store : Store) (rd : Reader ρ) (p : ρ × DataFrame) :
    Option (ρ × DataFrame) := mapRange args store rd 0 p.2.nrows.toNat p

/-- The loop of `local_map` on node `storeId`, bounded by its first argument. -/
def localMapLoop {ρ : Type} (args : Args) (store : Store) (storeId : SizeT) (row : Row)
    (rd : Reader ρ) : Nat → SizeT → ρ × DataFrame → Option (ρ × DataFrame)
  | 0, _, _ => none
  | fuel + 1, rowIdx, p =>
    if rowIdx < p.2.nrows then
      if args.blockSize = 0 ∨ args.numNodes = 0 then none
      else if rowIdx / args.blockSize % args.numNodes = storeId then do
        let p ← visitRow args store row rd p rowIdx.toNat
        localMapLoop args store storeId row rd fuel (rowIdx + 1) p
      else
        localMapLoop args store storeId row rd fuel (rowIdx + (args.blockSize - 1) + 1) p
    else some p

def localMap {ρ : Type} (args : Args) (store : Store) (storeId : SizeT) (fuel : Nat)
    (rd : Reader ρ) (p : ρ × DataFrame) : Option (ρ × DataFrame) := do
  let row ← Row.new p.2.schema
  localMapLoop args store storeId row rd fuel 0 p

/-! ### The rows a node goes over -/

/-- The row counters at which the loop of `local_map` visits a row. -/
def localIdxs (args : Args) (storeId nrows : SizeT) : Nat → SizeT → Option (List Nat)
  | 0, _ => none
  | fuel + 1, rowIdx =>
    if rowIdx < nrows then
      if rowIdx / args.blockSize % args.numNodes = storeId then
        (localIdxs args storeId nrows fuel (rowIdx + 1)).map (rowIdx.toNat :: ·)
      else localIdxs args storeId nrows fuel (rowIdx + (args.blockSize - 1) + 1)
    else some []

def IsLocal (args : Args) (storeId : SizeT) (i : Nat) : Prop :=
  i / args.blockSize.toNat % args.numNodes.toNat = storeId.toNat

instance (args : Args) (storeId : SizeT) (i : Nat) : Decidable (IsLocal args storeId i) :=
  inferInstanceAs (Decidable (_ = _))

section Idxs

variable {args : Args} {storeId nrows : SizeT}

theorem isLocal_iff {rowIdx : SizeT} :
    rowIdx / args.blockSize % args.numNodes = storeId ↔ IsLocal args storeId rowIdx.toNat := by
  rw [← UInt64.toNat_inj, UInt64.toNat_mod, UInt64.toNat_div]
  rfl

theorem isLocal_of_div_eq {i j : Nat} (h : i / args.blockSize.toNat = j / args.blockSize.toNat) :
    IsLocal args storeId i ↔ IsLocal args storeId j := by
  rw [IsLocal, IsLocal, h]

theorem toNat_skip (rowIdx : SizeT) :
    (rowIdx + (args.blockSize - 1) + 1).toNat =
      (rowIdx.toNat + args.blockSize.toNat) % 2 ^ 64 := by
  have h : rowIdx + (args.blockSize - 1) + 1 = rowIdx + args.blockSize := by
    rw [UInt64.add_assoc, UInt64.sub_add_cancel]
  rw [h, UInt64.toNat_add]

theorem div_eq_of_start {n i j : Nat} (hj : j % n = 0) (h1 : j ≤ i) (h2 : i < j + n) :
    i / n = j / n := by
  obtain ⟨q, rfl⟩ := Nat.dvd_of_mod_eq_zero hj
  have hn : 0 < n := by omega
  rw [Nat.mul_div_cancel_left q hn]
  refine Nat.div_eq_of_lt_le ?_ ?_
  · rwa [Nat.mul_comm]
  · rw [Nat.succ_mul, Nat.mul_comm]
    exact h2

theorem start_succ {j : Nat} (h : IsLocal args storeId j) :
    IsLocal args storeId (j + 1) ∨ (j + 1) % args.blockSize.toNat = 0 := by
  by_cases hstart : (j + 1) % args.blockSize.toNat = 0
  · exact Or.inr hstart
  · left
    rw [isLocal_of_div_eq (j := j)]
    · exact h
    · rw [Nat.succ_div, if_neg fun hd => hstart (Nat.mod_eq_zero_of_dvd hd), Nat.add_zero]

theorem not_isLocal_of_start {i j : Nat} (hj : j % args.blockSize.toNat = 0)
    (h : ¬ IsLocal args storeId j) (h1 : j ≤ i) (h2 : i < j + args.blockSize.toNat) :
    ¬ IsLocal args storeId i := by
  rwa [isLocal_of_div_eq (div_eq_of_start hj h1 h2)]

theorem toNat_succ {rowIdx : SizeT} (h : rowIdx < nrows) :
    (rowIdx + 1).toNat = rowIdx.toNat + 1 := by
  have hlt := UInt64.lt_iff_toNat_lt.mp h
  have hmax := nrows.toNat_lt
  rw [UInt64.toNat_add]
  exact Nat.mod_eq_of_lt (by
    show rowIdx.toNat + 1 < _
    omega)

/-- **A loop that ends has gone over the node's rows**, from a block's first row on. -/
theorem mem_localIdxs (hb : args.blockSize ≠ 0) {fuel : Nat} {rowIdx : SizeT} {is : List Nat}
    (h : localIdxs args storeId nrows fuel rowIdx = some is) :
    (∀ i ∈ is, i < nrows.toNat ∧ IsLocal args storeId i) ∧
      (IsLocal args storeId rowIdx.toNat ∨ rowIdx.toNat % args.blockSize.toNat = 0 →
        ∀ i, rowIdx.toNat ≤ i → i < nrows.toNat → IsLocal args storeId i → i ∈ is) := by
  have hpos := toNat_pos hb
  induction fuel generalizing rowIdx is with
  | zero => cases h
  | succ fuel ih =>
    rw [localIdxs] at h
    split at h
    · rename_i hlt
      have hlt' : rowIdx.toNat < nrows.toNat := UInt64.lt_iff_toNat_lt.mp hlt
      have hmax := nrows.toNat_lt
      split at h
      · rename_i hloc
        rw [isLocal_iff] at hloc
        obtain ⟨is', hrec, rfl⟩ := Option.map_eq_some_iff.mp h
        obtain ⟨hsub, hsup⟩ := ih hrec
        refine ⟨List.forall_mem_cons.mpr ⟨⟨hlt', hloc⟩, hsub⟩, fun _ i hle hi hil => ?_⟩
        rcases Nat.eq_or_lt_of_le hle with rfl | hle
        · exact List.mem_cons_self
        · refine List.mem_cons_of_mem _ (hsup ?_ i (by rw [toNat_succ hlt]; omega) hi hil)
          rw [toNat_succ hlt]
          exact start_succ hloc
      · rename_i hloc
        rw [isLocal_iff] at hloc
        obtain ⟨hsub, hsup⟩ := ih h
        refine ⟨hsub, fun hstart i hle hi hil => ?_⟩
        have hstart := hstart.resolve_left hloc
        -- a row of this block is not local, so `i` is behind it
        have hbehind : rowIdx.toNat + args.blockSize.toNat ≤ i := by
          by_contra hc
          exact not_isLocal_of_start hstart hloc hle (by omega) hil
        rw [toNat_skip, Nat.mod_eq_of_lt (by omega)] at hsup
        refine hsup (Or.inr ?_) i hbehind hi hil
        rw [Nat.add_mod_right, hstart]
    · rename_i hlt
      have hge : ¬ rowIdx.toNat < nrows.toNat := fun hc => hlt (UInt64.lt_iff_toNat_lt.mpr hc)
      cases h
      exact ⟨by simp, fun _ i hle hi _ => by omega⟩

theorem localIdxs_unique {fuel fuel' : Nat} {rowIdx : SizeT} {is is' : List Nat}
    (h : localIdxs args storeId nrows fuel rowIdx = some is)
    (h' : localIdxs args storeId nrows fuel' rowIdx = some is') : is = is' := by
  induction fuel generalizing fuel' rowIdx is is' with
  | zero => cases h
  | succ fuel ih =>
    cases fuel' with
    | zero => cases h'
    | succ fuel' =>
      rw [localIdxs] at h h'
      split at h
      · rename_i hlt
        rw [if_pos hlt] at h'
        split at h
        · rename_i hloc
          rw [if_pos hloc] at h'
          obtain ⟨is₁, h₁, rfl⟩ := Option.map_eq_some_iff.mp h
          obtain ⟨is₂, h₂, rfl⟩ := Option.map_eq_some_iff.mp h'
          rw [ih h₁ h₂]
        · rename_i hloc
          rw [if_neg hloc] at h'
          exact ih h h'
      · rename_i hlt
        rw [if_neg hlt] at h'
        exact Option.some.inj (h.symm.trans h')

theorem localIdxs_succ_cases {fuel : Nat} {rowIdx : SizeT} {is : List Nat}
    (h : localIdxs args storeId nrows (fuel + 1) rowIdx = some is) :
    (∃ is₁, localIdxs args storeId nrows fuel (rowIdx + 1) = some is₁ ∧
        is = rowIdx.toNat :: is₁) ∨
      (∃ rowIdx', localIdxs args storeId nrows fuel rowIdx' = some is) ∨ is = [] := by
  rw [localIdxs] at h
  split at h
  · split at h
    · obtain ⟨is₁, h₁, rfl⟩ := Option.map_eq_some_iff.mp h
      exact Or.inl ⟨is₁, h₁, rfl⟩
    · exact Or.inr (Or.inl ⟨_, h⟩)
  · cases h
    exact Or.inr (Or.inr rfl)

theorem localIdxs_suffix {fuel : Nat} {rowIdx : SizeT} {is : List Nat}
    (h : localIdxs args storeId nrows fuel rowIdx = some is) {i : Nat} (hi : i ∈ is) :
    ∃ fuel' rowIdx' is', localIdxs args storeId nrows fuel' rowIdx' = some (i :: is') ∧
      rowIdx'.toNat = i ∧ i :: is' <:+ is := by
  induction fuel generalizing rowIdx is with
  | zero => cases h
  | succ fuel ih =>
    rcases localIdxs_succ_cases h with ⟨is₁, h₁, rfl⟩ | ⟨rowIdx₁, h₁⟩ | rfl
    · rcases List.mem_cons.mp hi with rfl | hi
      · exact ⟨fuel + 1, rowIdx, is₁, h, rfl, List.suffix_rfl⟩
      · obtain ⟨fuel', rowIdx', is', h', he, hsuf⟩ := ih h₁ hi
        exact ⟨fuel', rowIdx', is', h', he, hsuf.trans (List.suffix_cons _ _)⟩
    · exact ih h₁ hi
    · cases hi

/-- **A loop that ends visits no row twice**: it would never end. -/
theorem nodup_localIdxs {fuel : Nat} {rowIdx : SizeT} {is : List Nat}
    (h : localIdxs args storeId nrows fuel rowIdx = some is) : is.Nodup := by
  induction fuel generalizing rowIdx is with
  | zero => cases h
  | succ fuel ih =>
    rcases localIdxs_succ_cases h with ⟨is₁, h₁, rfl⟩ | ⟨rowIdx₁, h₁⟩ | rfl
    · refine List.nodup_cons.mpr ⟨fun hmem => ?_, ih h₁⟩
      obtain ⟨fuel', rowIdx', is', h', he, hsuf⟩ := localIdxs_suffix h₁ hmem
      rw [UInt64.toNat_inj.mp he] at h'
      have hlen := hsuf.length_le
      rw [(List.cons.inj (localIdxs_unique h h')).2, List.length_cons] at hlen
      omega
    · exact ih h₁
    · exact List.nodup_nil

theorem localIdxs_mono {args : Args} {storeId nrows rowIdx : SizeT} {fuel fuel' : Nat}
    {is : List Nat} (h : localIdxs args storeId nrows fuel rowIdx = some is)
    (hle : fuel ≤ fuel') : localIdxs args storeId nrows fuel' rowIdx = some is := by
  induction fuel generalizing rowIdx fuel' is with
  | zero => cases h
  | succ fuel ih =>
    obtain ⟨fuel', rfl⟩ := Nat.exists_eq_add_of_le' (Nat.le_trans (Nat.succ_pos fuel) hle)
    have hle' : fuel ≤ fuel' := Nat.le_of_succ_le_succ hle
    rw [localIdxs] at h ⊢
    split
    · rename_i hlt
      rw [if_pos hlt] at h
      split
      · rename_i hlocal
        rw [if_pos hlocal] at h
        obtain ⟨is', his, rfl⟩ := Option.map_eq_some_iff.mp h
        rw [ih his hle']
        rfl
      · rename_i hlocal
        rw [if_neg hlocal] at h
        exact ih h hle'
    · rename_i hlt
      rwa [if_neg hlt] at h

/-- **Without an overflow the loop goes over each of the node's rows once, in order.** -/
theorem localIdxs_eq (hb : args.blockSize ≠ 0)
    (hfit : nrows.toNat + min nrows.toNat args.blockSize.toNat ≤ 2 ^ 64) {fuel : Nat}
    {rowIdx : SizeT}
    (hf : nrows.toNat - rowIdx.toNat < fuel)
    (hstart : IsLocal args storeId rowIdx.toNat ∨ rowIdx.toNat % args.blockSize.toNat = 0) :
    localIdxs args storeId nrows fuel rowIdx =
      some ((List.range' rowIdx.toNat (nrows.toNat - rowIdx.toNat)).filter
        (IsLocal args storeId)) := by
  have hpos := toNat_pos hb
  induction fuel generalizing rowIdx with
  | zero => omega
  | succ fuel ih =>
    rw [localIdxs]
    by_cases hlt : rowIdx < nrows
    · have hlt' : rowIdx.toNat < nrows.toNat := UInt64.lt_iff_toNat_lt.mp hlt
      rw [if_pos hlt]
      by_cases hloc : IsLocal args storeId rowIdx.toNat
      · have hrange : nrows.toNat - rowIdx.toNat = nrows.toNat - (rowIdx.toNat + 1) + 1 := by omega
        rw [if_pos (isLocal_iff.mpr hloc), ih (by rw [toNat_succ hlt]; omega)
          (by rw [toNat_succ hlt]; exact start_succ hloc), toNat_succ hlt, hrange,
          List.range'_succ, List.filter_cons_of_pos (by simpa using hloc)]
        rfl
      · have hstart := hstart.resolve_left hloc
        -- the first block starts at 0, and a later one is no larger than the rows before it
        have hblock : rowIdx.toNat = 0 ∨ args.blockSize.toNat ≤ rowIdx.toNat := by
          rcases Nat.eq_zero_or_pos rowIdx.toNat with h0 | h0
          · exact Or.inl h0
          · exact Or.inr (Nat.le_of_dvd h0 (Nat.dvd_of_mod_eq_zero hstart))
        have hskip : (rowIdx + (args.blockSize - 1) + 1).toNat =
            rowIdx.toNat + args.blockSize.toNat := by
          have hmax := args.blockSize.toNat_lt
          rw [toNat_skip, Nat.mod_eq_of_lt (by omega)]
        have hf' : nrows.toNat - (rowIdx + (args.blockSize - 1) + 1).toNat < fuel := by
          rw [hskip]
          omega
        have hrec := ih hf' (Or.inr (by rw [hskip, Nat.add_mod_right, hstart]))
        rw [if_neg (fun hc => hloc (isLocal_iff.mp hc)), hrec, hskip]
        -- the rows of the block that is skipped are not local
        obtain ⟨d, hd⟩ : ∃ d, d = min args.blockSize.toNat (nrows.toNat - rowIdx.toNat) := ⟨_, rfl⟩
        have hsplit : List.range' rowIdx.toNat (nrows.toNat - rowIdx.toNat) =
            List.range' rowIdx.toNat d ++
              List.range' (rowIdx.toNat + d) (nrows.toNat - rowIdx.toNat - d) := by
          rw [List.range'_append_1]
          congr 1
          omega
        have hnil : (List.range' rowIdx.toNat d).filter (IsLocal args storeId) = [] := by
          refine List.filter_eq_nil_iff.mpr fun i hi => ?_
          have hi := List.mem_range'_1.mp hi
          simpa using not_isLocal_of_start hstart hloc hi.1 (by omega)
        rw [hsplit, List.filter_append, hnil, List.nil_append]
        by_cases hlast : nrows.toNat - rowIdx.toNat ≤ args.blockSize.toNat
        · rw [show nrows.toNat - (rowIdx.toNat + args.blockSize.toNat) = 0 by omega,
            show nrows.toNat - rowIdx.toNat - d = 0 by omega]
          rfl
        · rw [show d = args.blockSize.toNat by omega, Nat.sub_sub]
    · have hge : ¬ rowIdx.toNat < nrows.toNat := fun hc => hlt (UInt64.lt_iff_toNat_lt.mpr hc)
      rw [if_neg hlt, show nrows.toNat - rowIdx.toNat = 0 by omega]
      rfl

end Idxs

/-! ### The rows that are passed to a reader -/

/-- The row with index `i` of a dataframe that holds `rows`, over the schema `scm`. -/
def rowAt (scm : Schema) (rows : List (List Cell)) (i : Nat) : Row :=
  if h : (rows.getD i []).map Cell.type = scm.types then {
    scm := scm
    entries := (rows.getD i []).map some
    rowIdx := UInt64.ofNat i
    width_eq := by rw [List.length_map, Schema.width, ← h, List.length_map]
    typed := by
      intro j c hj
      rw [← h, List.getElem?_map]
      rw [List.getElem?_map] at hj
      obtain ⟨c', hc', he⟩ := Option.map_eq_some_iff.mp hj
      cases he
      rw [hc']
      rfl }
  else Row.unset scm (UInt64.ofNat i)

section RowAt

variable {scm : Schema} {rows : List (List Cell)} {i : Nat}

@[simp] theorem rowIdx_rowAt : (rowAt scm rows i).rowIdx = UInt64.ofNat i := by
  rw [rowAt]
  split <;> rfl

@[simp] theorem scm_rowAt : (rowAt scm rows i).scm = scm := by
  rw [rowAt]
  split <;> rfl

theorem isSet_rowAt (ht : Typed scm.types rows) (hi : i < rows.length) :
    (rowAt scm rows i).IsSet rows[i] := by
  have hrow : rows.getD i [] = rows[i] := by
    rw [List.getD_eq_getElem?_getD, List.getElem?_eq_getElem hi]
    rfl
  have h : (rows.getD i []).map Cell.type = scm.types := by
    rw [hrow]
    exact ht _ (List.getElem_mem hi)
  rw [rowAt, dif_pos h]
  exact congrArg (List.map some) hrow

theorem eq_rowAt (ht : Typed scm.types rows) (hi : i < rows.length) {r : Row} (hs : r.scm = scm)
    (hidx : r.rowIdx = UInt64.ofNat i) (hset : r.IsSet rows[i]) : r = rowAt scm rows i := by
  refine Row.ext ?_ ?_ ?_
  · rw [hs, scm_rowAt]
  · exact hset.trans (isSet_rowAt ht hi).symm
  · rw [hidx, rowIdx_rowAt]

end RowAt

section Reading

variable {args : Args} {store : Store} {types : List DataType} {rows : List (List Cell)}

theorem fillCols_spec (hn : args.numNodes ≠ 0) (hb : args.blockSize ≠ 0)
    (ht : Typed types rows) {i : Nat} (hi : i < rows.length) {df : DataFrame}
    (h : df.Shows args store types rows) (row : Row) (hrow : row.scm.types = types) {n : Nat}
    (hle : n ≤ rows[i].length) :
    ∃ r df', (List.range n).foldlM (fillCol args store i) (row, df) = some (r, df') ∧
      r.scm = row.scm ∧ r.rowIdx = row.rowIdx ∧
      (∀ j, j < n → r.entries[j]? = some rows[i][j]?) ∧ df'.Shows args store types rows := by
  induction n with
  | zero => exact ⟨row, df, rfl, rfl, rfl, fun j hj => by omega, h⟩
  | succ n ih =>
    obtain ⟨r, df₁, hfold, hscm, hidx, hentries, h₁⟩ := ih (by omega)
    have hcell : rows[i][n]? = some rows[i][n] := List.getElem?_eq_getElem (by omega)
    obtain ⟨htype, df₂, hget, h₂⟩ := get_spec hn hb h₁ ht (List.getElem?_eq_getElem hi) hcell
    have hcol : df₁.schema.colType n = some rows[i][n].type := by rwa [Schema.colType, h₁.schema]
    have hrtype : r.scm.types[n]? = some rows[i][n].type := by rwa [hscm, hrow]
    have hlen : n < r.entries.length := by
      rw [r.width_eq]
      exact (List.getElem?_eq_some_iff.mp hrtype).1
    obtain ⟨r', hset, hscm', hidx', hentries'⟩ := Row.set_spec hrtype
    refine ⟨r', df₂, ?_, hscm'.trans hscm, hidx'.trans hidx, ?_, h₂⟩
    · rw [List.range_succ, List.foldlM_append, hfold]
      simp only [List.foldlM_cons, List.foldlM_nil, Option.bind_eq_bind, Option.bind_some, fillCol,
        setRowValByColType_, hcol, hget, hset]
      rfl
    · intro j hj
      rw [hentries', List.getElem?_set]
      split
      · rename_i he
        subst he
        rw [hcell]
      · exact hentries j (by omega)

/-- **The reader is run on the row, with its index.** -/
theorem visitRow_spec (hn : args.numNodes ≠ 0) (hb : args.blockSize ≠ 0)
    {scm : Schema} (ht : Typed scm.types rows) {i : Nat} (hi : i < rows.length) {df : DataFrame}
    (h : df.Shows args store scm.types rows) {ρ : Type} (rd : Reader ρ) (s : ρ) :
    ∃ df', visitRow args store (Row.unset scm 0) rd (s, df) i =
        (rd s (rowAt scm rows i)).map (·, df') ∧ df'.Shows args store scm.types rows := by
  have hwidth : (Row.unset scm 0).width = rows[i].length := by
    rw [Row.width, Row.width_eq, ← List.length_map Cell.type, ht _ (List.getElem_mem hi)]
    rfl
  obtain ⟨r, df', hfold, hscm, hidx, hentries, h'⟩ := fillCols_spec hn hb ht hi h
    ((Row.unset scm 0).setIdx (UInt64.ofNat i)) rfl (Nat.le_refl _)
  have hr : r = rowAt scm rows i := by
    refine eq_rowAt ht hi hscm hidx (List.ext_getElem? fun j => ?_)
    rw [List.getElem?_map]
    by_cases hj : j < rows[i].length
    · rw [hentries j hj, List.getElem?_eq_getElem hj]
      rfl
    · have hlen : r.entries.length = rows[i].length := by
        rw [r.width_eq, hscm, ← hwidth, Row.width, Row.width_eq]
        rfl
      rw [List.getElem?_eq_none (by omega), List.getElem?_eq_none (by omega)]
      rfl
  refine ⟨df', ?_, h'⟩
  rw [visitRow, hwidth, hfold, Option.bind_eq_bind, Option.bind_some, hr]
  show (rd s (rowAt scm rows i)).bind _ = _
  cases hrd : rd s (rowAt scm rows i) <;> rfl

theorem visitRows_spec (hn : args.numNodes ≠ 0) (hb : args.blockSize ≠ 0)
    (scm : Schema) (ht : Typed scm.types rows) {is : List Nat} (his : ∀ i ∈ is, i < rows.length)
    {df : DataFrame} (h : df.Shows args store scm.types rows) {ρ : Type} (rd : Reader ρ) (s : ρ) :
    (is.foldlM (visitRow args store (Row.unset scm 0) rd) (s, df)).map Prod.fst =
      (is.map (rowAt scm rows)).foldlM rd s := by
  induction is generalizing s df with
  | nil => rfl
  | cons i is ih =>
    obtain ⟨df', hv, h'⟩ := visitRow_spec hn hb ht (his i List.mem_cons_self) h rd s
    rw [List.foldlM_cons, hv, List.map_cons, List.foldlM_cons]
    cases rd s (rowAt scm rows i) with
    | none => rfl
    | some s' => exact ih (fun i hi => his i (List.mem_cons_of_mem _ hi)) h' s'

theorem map_spec (hn : args.numNodes ≠ 0) (hb : args.blockSize ≠ 0) {df : DataFrame}
    (hok : df.schema.Ok) (ht : Typed types rows) (hr : rows.length < 2 ^ 64)
    (h : df.Shows args store types rows) {ρ : Type} (rd : Reader ρ) (s : ρ) :
    (map args store rd (s, df)).map Prod.fst =
      ((List.range rows.length).map (rowAt (Schema.ofCols types) rows)).foldlM rd s := by
  have hlen : df.nrows.toNat = rows.length := by
    rw [h.nrows]
    exact UInt64.toNat_ofNat_of_lt' hr
  rw [map, mapRange, Row.new, Schema.copy_eq hok, h.schema, hlen, Nat.sub_zero,
    ← List.range_eq_range', ← visitRows_spec hn hb (Schema.ofCols types) ht
      (fun i hi => List.mem_range.mp hi) h rd s]
  rfl

/-- **The loop of `local_map` runs the reader on the rows that `localIdxs` goes over.** -/
theorem localMapLoop_eq (hn : args.numNodes ≠ 0) (hb : args.blockSize ≠ 0)
    (scm : Schema) (ht : Typed scm.types rows) (storeId : SizeT) {ρ : Type} (rd : Reader ρ)
    {fuel : Nat} {rowIdx : SizeT} {s : ρ} {df : DataFrame}
    (h : df.Shows args store scm.types rows) :
    (localMapLoop args store storeId (Row.unset scm 0) rd fuel rowIdx (s, df)).map Prod.fst =
      (localIdxs args storeId (UInt64.ofNat rows.length) fuel rowIdx).bind fun is =>
        (is.map (rowAt scm rows)).foldlM rd s := by
  induction fuel generalizing rowIdx s df with
  | zero => rfl
  | succ fuel ih =>
    have hnrows : df.nrows = UInt64.ofNat rows.length := h.nrows
    rw [localMapLoop, localIdxs]
    show (if rowIdx < df.nrows then _ else _ : Option (ρ × DataFrame)).map _ = _
    rw [hnrows]
    by_cases hlt : rowIdx < UInt64.ofNat rows.length
    · rw [if_pos hlt, if_pos hlt, if_neg (by rw [not_or]; exact ⟨hb, hn⟩)]
      by_cases hloc : rowIdx / args.blockSize % args.numNodes = storeId
      · have hi : rowIdx.toNat < rows.length := by
          have hlt' := UInt64.lt_iff_toNat_lt.mp hlt
          rw [UInt64.toNat_ofNat'] at hlt'
          exact Nat.lt_of_lt_of_le hlt' (Nat.mod_le _ _)
        obtain ⟨df', hv, h'⟩ := visitRow_spec hn hb ht hi h rd s
        rw [if_pos hloc, if_pos hloc, hv]
        -- the reader may give up before the loop runs out of fuel, or after
        cases hrd : rd s (rowAt scm rows rowIdx.toNat) with
        | none =>
          cases localIdxs args storeId (UInt64.ofNat rows.length) fuel (rowIdx + 1) with
          | none => rfl
          | some is =>
            show _ = (rowAt scm rows rowIdx.toNat :: is.map (rowAt scm rows)).foldlM rd s
            rw [List.foldlM_cons, hrd]
            rfl
        | some s' =>
          refine (ih h').trans ?_
          cases localIdxs args storeId (UInt64.ofNat rows.length) fuel (rowIdx + 1) with
          | none => rfl
          | some is =>
            show _ = (rowAt scm rows rowIdx.toNat :: is.map (rowAt scm rows)).foldlM rd s
            rw [List.foldlM_cons, hrd]
            rfl
      · rw [if_neg hloc, if_neg hloc]
        exact ih h
    · rw [if_neg hlt, if_neg hlt]
      rfl

theorem localMap_eq (hn : args.numNodes ≠ 0) (hb : args.blockSize ≠ 0) {df : DataFrame}
    (hok : df.schema.Ok) (ht : Typed types rows) (h : df.Shows args store types rows)
    (storeId : SizeT) (fuel : Nat) {ρ : Type} (rd : Reader ρ) (s : ρ) :
    (localMap args store storeId fuel rd (s, df)).map Prod.fst =
      (localIdxs args storeId (UInt64.ofNat rows.length) fuel 0).bind fun is =>
        (is.map (rowAt (Schema.ofCols types) rows)).foldlM rd s := by
  rw [localMap, Row.new, Schema.copy_eq hok, h.schema,
    ← localMapLoop_eq hn hb (Schema.ofCols types) ht storeId rd h]
  rfl

/-- **`map` and `local_map` on all nodes.**  `all` are the rows that `map` passes to a
reader; `own s` are those that `local_map` passes on node `s`, in this order. -/
structure Partition (args : Args) (store : Store) (df : DataFrame) (all : List Row)
    (own : SizeT → List Row) : Prop where
  map_eq : ∀ (ρ : Type) (rd : Reader ρ) (st : ρ),
    (map args store rd (st, df)).map Prod.fst = all.foldlM rd st
  localMap_eq : ∀ s, s < args.numNodes → ∀ fuel, df.nrows.toNat < fuel →
    ∀ (ρ : Type) (rd : Reader ρ) (st : ρ),
      (localMap args store s fuel rd (st, df)).map Prod.fst = (own s).foldlM rd st
  idx_all : all.map (fun r => r.rowIdx.toNat) = List.range df.nrows.toNat
  increasing : ∀ s, s < args.numNodes → (own s).Pairwise fun r r' => r.rowIdx < r'.rowIdx
  mem_all : ∀ s, s < args.numNodes → ∀ r ∈ own s, r ∈ all
  one_node : ∀ r ∈ all, ∃ s, s < args.numNodes ∧ r ∈ own s ∧
    ∀ s', s' < args.numNodes → r ∈ own s' → s' = s
  home : ∀ s, s < args.numNodes → ∀ r ∈ own s, ∀ c, c < df.ncols → ∃ col k,
    df.columns[c]? = some col ∧
      Column.genKey_ args col.baseKey (r.rowIdx / args.blockSize).toNat c = some k ∧
      k.homeNode = s

def ownRows (args : Args) (scm : Schema) (rows : List (List Cell)) (s : SizeT) : List Row :=
  ((List.range rows.length).filter (IsLocal args s)).map (rowAt scm rows)

theorem toNat_rowIdx_rowAt {scm : Schema} {i : Nat} (hr : rows.length < 2 ^ 64)
    (hi : i < rows.length) : (rowAt scm rows i).rowIdx.toNat = i := by
  rw [rowIdx_rowAt]
  exact UInt64.toNat_ofNat_of_lt' (Nat.lt_trans hi hr)

theorem mem_ownRows {scm : Schema} {s : SizeT} {r : Row} : r ∈ ownRows args scm rows s ↔
    ∃ i, i < rows.length ∧ IsLocal args s i ∧ rowAt scm rows i = r := by
  rw [ownRows, List.mem_map]
  constructor
  · rintro ⟨i, hi, rfl⟩
    rw [List.mem_filter, List.mem_range, decide_eq_true_eq] at hi
    exact ⟨i, hi.1, hi.2, rfl⟩
  · rintro ⟨i, hi, hloc, rfl⟩
    exact ⟨i, List.mem_filter.mpr ⟨List.mem_range.mpr hi, decide_eq_true hloc⟩, rfl⟩

/-- **The nodes' rows are a partition of the rows**, as long as the counter does not
overflow. -/
theorem partition_of_shows (hn : args.numNodes ≠ 0) (hb : args.blockSize ≠ 0) {df : DataFrame}
    (hok : df.schema.Ok) (ht : Typed types rows) (h : df.Shows args store types rows)
    (hfit : rows.length + args.blockSize.toNat < 2 ^ 64) :
    Partition args store df
      ((List.range rows.length).map (rowAt (Schema.ofCols types) rows))
      (ownRows args (Schema.ofCols types) rows) where
  map_eq ρ rd st := map_spec hn hb hok ht (by omega) h rd st
  localMap_eq s _ fuel hf ρ rd st := by
    have hlen : (UInt64.ofNat rows.length).toNat = rows.length :=
      UInt64.toNat_ofNat_of_lt' (by show rows.length < 2 ^ 64; omega)
    rw [h.nrows, hlen] at hf
    have hf : (UInt64.ofNat rows.length).toNat - (0 : SizeT).toNat < fuel := by
      rw [hlen]
      exact Nat.lt_of_le_of_lt (Nat.sub_le _ _) hf
    have hstart : IsLocal args s (0 : SizeT).toNat ∨ (0 : SizeT).toNat % args.blockSize.toNat = 0 :=
      Or.inr (Nat.zero_mod _)
    have hidxs := localIdxs_eq hb (by rw [hlen]; omega) hf hstart
    rw [localMap_eq hn hb hok ht h s fuel rd st, hidxs, hlen]
    show (List.map _ ((List.range' 0 (rows.length - 0)).filter _)).foldlM rd st = _
    rw [Nat.sub_zero, ← List.range_eq_range', ownRows]
  idx_all := by
    rw [h.nrows, UInt64.toNat_ofNat_of_lt' (by show rows.length < 2 ^ 64; omega), List.map_map]
    refine (List.map_congr_left fun i hi => ?_).trans (List.map_id _)
    exact toNat_rowIdx_rowAt (by omega) (List.mem_range.mp hi)
  increasing s _ := by
    rw [ownRows, List.pairwise_map]
    have hsorted : ((List.range rows.length).filter (IsLocal args s)).Pairwise (· < ·) :=
      List.pairwise_lt_range.filter _
    refine hsorted.imp_of_mem fun {i j} hi hj hij => ?_
    have hi' := List.mem_range.mp (List.mem_filter.mp hi).1
    have hj' := List.mem_range.mp (List.mem_filter.mp hj).1
    rwa [UInt64.lt_iff_toNat_lt, toNat_rowIdx_rowAt (by omega) hi',
      toNat_rowIdx_rowAt (by omega) hj']
  mem_all s _ r hr := by
    obtain ⟨i, hi, -, rfl⟩ := mem_ownRows.mp hr
    exact List.mem_map.mpr ⟨i, List.mem_range.mpr hi, rfl⟩
  one_node r hr := by
    obtain ⟨i, hi, rfl⟩ := List.mem_map.mp hr
    have hi := List.mem_range.mp hi
    have hlt : i / args.blockSize.toNat % args.numNodes.toNat < args.numNodes.toNat :=
      Nat.mod_lt _ (toNat_pos hn)
    have hmod : (UInt64.ofNat (i / args.blockSize.toNat % args.numNodes.toNat)).toNat =
        i / args.blockSize.toNat % args.numNodes.toNat :=
      UInt64.toNat_ofNat_of_lt' (Nat.lt_trans hlt args.numNodes.toNat_lt)
    refine ⟨UInt64.ofNat (i / args.blockSize.toNat % args.numNodes.toNat), ?_,
      mem_ownRows.mpr ⟨i, hi, hmod.symm, rfl⟩, fun s' _ hs' => ?_⟩
    · rwa [UInt64.lt_iff_toNat_lt, hmod]
    · obtain ⟨j, hj, hloc, he⟩ := mem_ownRows.mp hs'
      have hij := congrArg (fun r : Row => r.rowIdx.toNat) he
      rw [toNat_rowIdx_rowAt (by omega) hj, toNat_rowIdx_rowAt (by omega) hi] at hij
      subst hij
      rw [← UInt64.toNat_inj, hmod]
      exact hloc.symm
  home s _ r hr c hc := by
    obtain ⟨i, hi, hloc, rfl⟩ := mem_ownRows.mp hr
    rw [ncols, Schema.width, h.schema] at hc
    obtain ⟨col, hcol, -⟩ := h.columns c _ (List.getElem?_eq_getElem hc)
    refine ⟨col, _, hcol, Column.genKey_eq hn _ _ _, ?_⟩
    show UInt64.ofNat (((rowAt _ rows i).rowIdx / args.blockSize).toNat % _) = s
    rw [UInt64.toNat_div, toNat_rowIdx_rowAt (by omega) hi, hloc, UInt64.ofNat_toNat]

end Reading

/-- **`local_map` on all nodes goes over each row once**, in order on each node, over rows
whose blocks live there, and passes the row that `map` passes; through the handle that was
returned and through the one in the store. -/
theorem local_map_partition {args : Args} (hn : args.numNodes ≠ 0) (hb : args.blockSize ≠ 0)
    {k : Key} {df : DataFrame} {puts : List Put} (h : DataToDf.Makes args k df puts)
    (hfit : df.nrows.toNat + args.blockSize.toNat < 2 ^ 64) {log : List Put}
    (hlog : DataToDf.Undisturbed puts log) :
    ∃ all own, Partition args (applied log) df all own ∧
      ∃ df', waitAndGet (applied log) k = some df' ∧
        Partition args (applied log) df' all own := by
  obtain ⟨base, types, capCols, rows, hcreated, hr⟩ := DataToDf.created_of_makes hn hb h
  obtain ⟨hget, hshows⟩ := hcreated.shows hlog hr
  rw [hshows.nrows, UInt64.toNat_ofNat_of_lt' (by exact hr)] at hfit
  have hpart := partition_of_shows hn hb hcreated.ok hcreated.typed hshows hfit
  exact ⟨_, _, hpart, df, hget, hpart⟩

/-- Five rows in blocks of two, on two nodes. -/
theorem local_map_partition_upTo : ∃ df puts all own,
    DataToDf.fromVisitor ⟨2, 2⟩ 6 ⟨⟨[100], by decide⟩, 1⟩ [73] (DataToDf.upTo 5) 0 =
        some (df, puts) ∧
      Partition ⟨2, 2⟩ (applied puts) df all own := by
  have hn : (⟨2, 2⟩ : Args).numNodes ≠ 0 := by decide
  have hb : (⟨2, 2⟩ : Args).blockSize ≠ 0 := by decide
  have hscm : ([73] : Str).mapM DataType.charToType = some [.Integer] := rfl
  have hf : ((List.range' 0 5).map fun i => [Cell.int (Int32.ofNat i)]).length < 6 := by decide
  obtain ⟨capCols, df, puts, hfrom, hcreated⟩ := DataToDf.created_of_visitor hn hb
    ⟨⟨[100], by decide⟩, 1⟩ (by decide) hscm (DataToDf.emits_upTo 5 0 0) hf
  have hnrows : df.nrows = 5 := by
    rw [hcreated.df_eq]
    rfl
  obtain ⟨all, own, hpart, -⟩ := local_map_partition hn hb
    (.fromVisitor [73] (DataToDf.upTo 5) 0 6 (by decide) (by decide) hfrom)
    (by rw [hnrows]; decide) (DataToDf.undisturbed_self puts)
  exact ⟨df, puts, all, own, hfrom, hpart⟩

end DataFrame

end Eau2
