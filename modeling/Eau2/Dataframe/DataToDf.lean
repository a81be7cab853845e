import Eau2.Dataframe.Visit
import Eau2.Store.KVStore

/-!
# Dataframes in the distributed store

`dataframe/datatodf.h` and the reads of `store/getImpls.h`.  A `from` function gives a
dataframe and the puts that it makes, in order: the blocks', and then the dataframe's
own under its key.  A put is applied at the home node of its key, after any other puts;
`applied` is what is stored after a list of them.

`fromFile` is `fromVisitor` over the types and the writer that a `Sorer` gives.

* `Created`: what every `from` function gives (`created_of_array`, `created_of_visitor`).
* `Created.shows`: once its puts are applied, and no others under their keys, the
  dataframe shows its rows, and is what `waitAndGet` returns.
-/

namespace Eau2

open Bytes Serializer

abbrev Stores := SizeT → KVStore

namespace Stores

def new : Stores := KVStore.new

/-- A put has come to the home node of its key. -/
def apply (ss : Stores) (p : Put) : Stores := fun n =>
  if n = p.1.homeNode then (ss n).insert p.1 p.2 else ss n

def values (ss : Stores) : Store := fun k => (ss k.homeNode).lookup k

/-- **A put changes what is stored under its key.** -/
@[simp] theorem values_apply (ss : Stores) (p : Put) (k : Key) :
    (ss.apply p).values k = if p.1 = k then some p.2 else ss.values k := by
  rw [values, apply]
  by_cases hk : p.1 = k
  · rw [if_pos hk, hk, if_pos rfl, KVStore.lookup_insert, if_pos rfl]
  · rw [if_neg hk]
    by_cases hn : k.homeNode = p.1.homeNode
    · -- another key of this node is another string
      rw [if_pos hn, KVStore.lookup_insert, if_neg, values]
      intro hs
      refine hk ?_
      cases hp : p.1
      cases k
      simp_all
    · rw [if_neg hn, values]

end Stores

def applied (log : List Put) : Store := Stores.values (log.foldl Stores.apply Stores.new)

theorem applied_snoc (log : List Put) (p : Put) (k : Key) :
    applied (log ++ [p]) k = if p.1 = k then some p.2 else applied log k := by
  rw [applied, List.foldl_append, List.foldl_cons, List.foldl_nil, Stores.values_apply]
  rfl

theorem applied_of_mem {log : List Put} {p : Put} (hp : p ∈ log)
    (h : ∀ q ∈ log, q.1 = p.1 → q = p) : applied log p.1 = some p.2 := by
  induction log using List.reverseRecOn with
  | nil => cases hp
  | append_singleton log q ih =>
    rw [applied_snoc]
    by_cases hq : q.1 = p.1
    · rw [if_pos hq, h q (List.mem_append_right _ List.mem_cons_self) hq]
    · rw [if_neg hq]
      rcases List.mem_append.mp hp with hp | hp
      · exact ih hp fun q' hq' => h q' (List.mem_append_left _ hq')
      · rw [List.mem_singleton.mp hp] at hq
        exact absurd rfl hq

def getHelper_ (val : Value) : Option DataFrame := val.read DataFrame.deserialize

def waitAndGet (store : Store) (k : Key) : Option DataFrame := do
  let val ← store k
  getHelper_ val

namespace DataToDf

/-- What the overloads of `fromArray` take. -/
inductive Elements
  | ints (elems : List Int32)
  | bools (elems : List Bool)
  | doubles (elems : List UInt64)
  | strings (elems : List CStr)

namespace Elements

def type : Elements → DataType
  | ints _ => .Integer
  | bools _ => .Boolean
  | doubles _ => .Double
  | strings _ => .Str

def cells : Elements → List Cell
  | ints elems => elems.map .int
  | bools elems => elems.map .bool
  | doubles elems => elems.map .double
  | strings elems => elems.map .str

theorem type_of_mem_cells {elems : Elements} {c : Cell} (h : c ∈ elems.cells) :
    c.type = elems.type := by
  cases elems <;> obtain ⟨e, -, rfl⟩ := List.mem_map.mp h <;> rfl

theorem type_ne_field (elems : Elements) : elems.type ≠ .Field := by
  cases elems <;> intro h <;> cases h

def rows (elems : Elements) : List (List Cell) := elems.cells.map fun c => [c]

end Elements

def addDFToStore_ (df : DataFrame) : Option (DataFrame × Put) := do
  let v ← Value.of df.serialize
  pure (df, (df.key, v))

/-- `fromVisitor`; the loop of `visit` is bounded by `fuel`. -/
def fromVisitor {σ : Type} (args : Args) (fuel : Nat) (k : Key) (scm : Str) (w : Writer σ)
    (s : σ) : Option (DataFrame × List Put) := do
  let df ← DataFrame.ofTypes scm k
  let (df, puts) ← df.visit args w fuel s
  let (df, put) ← addDFToStore_ df
  pure (df, puts ++ [put])

/-- `fromFile`, where the file has `typesChar` and `sw` goes over its rows. -/
def fromFile {σ : Type} (args : Args) (fuel : Nat) (k : Key) (typesChar : Str) (sw : Writer σ)
    (s : σ) : Option (DataFrame × List Put) := fromVisitor args fuel k typesChar sw s

def fromArray (args : Args) (k : Key) (elems : Elements) : Option (DataFrame × List Put) := do
  let (df, puts) ← (DataFrame.ofKey k).addArray args elems.type elems.cells
  let (df, put) ← addDFToStore_ df
  pure (df, puts ++ [put])

def fromDouble (args : Args) (k : Key) (elem : UInt64) := fromArray args k (.doubles [elem])
def fromString (args : Args) (k : Key) (elem : CStr) := fromArray args k (.strings [elem])
def fromInt (args : Args) (k : Key) (elem : Int32) := fromArray args k (.ints [elem])
def fromBool (args : Args) (k : Key) (elem : Bool) := fromArray args k (.bools [elem])

/-! ### What the `from` functions give -/

/-- The dataframe that holds `rows` under key `k`, and its puts. -/
structure Created (args : Args) (k base : Key) (types : List DataType) (capCols : SizeT)
    (rows : List (List Cell)) (df : DataFrame) (puts : List Put) : Prop where
  df_eq : df = DataFrame.frame args base types rows capCols k
  ok : df.schema.Ok
  typed : DataFrame.Typed types rows
  extends_key : k.kStr.val <+: base.kStr.val
  mem_puts : ∀ p, p ∈ puts ↔ p ∈ DataFrame.framePuts args base types rows ∨ p = (k, ⟨df.bytes⟩)

section Created

variable {args : Args} {k base : Key} {types : List DataType} {capCols : SizeT}
  {rows : List (List Cell)} {df : DataFrame} {puts : List Put}

theorem Created.key_ne (h : Created args k base types capCols rows df puts) {p : Put}
    (hp : p ∈ DataFrame.framePuts args base types rows) : p.1 ≠ k := by
  obtain ⟨c, t, -, hp⟩ := DataFrame.mem_framePuts.mp hp
  obtain ⟨b, -, rfl⟩ := List.mem_map.mp hp
  intro he
  have hle := h.extends_key.length_le
  have hlen := congrArg (fun k => k.kStr.val.length) (show Column.blockKey args base c b = k from he)
  rw [Column.blockKey_kStr, List.length_append, List.length_cons] at hlen
  omega

/-- **A dataframe puts each of its keys once.** -/
theorem Created.key_inj (h : Created args k base types capCols rows df puts) {p q : Put}
    (hp : p ∈ puts) (hq : q ∈ puts) (he : p.1 = q.1) : p = q := by
  rcases (h.mem_puts p).mp hp with hp | rfl
  · rcases (h.mem_puts q).mp hq with hq | rfl
    · exact DataFrame.framePuts_key_inj hp hq he
    · exact absurd he (h.key_ne hp)
  · rcases (h.mem_puts q).mp hq with hq | rfl
    · exact absurd he.symm (h.key_ne hq)
    · rfl

theorem created_of_frame
    (hok : (DataFrame.frame args base types rows capCols k).schema.Ok)
    (ht : DataFrame.Typed types rows) (hext : k.kStr.val <+: base.kStr.val)
    (hmem : ∀ p, p ∈ puts ↔ p ∈ DataFrame.framePuts args base types rows) :
    ∃ put, addDFToStore_ (DataFrame.frame args base types rows capCols k) =
        some (DataFrame.frame args base types rows capCols k, put) ∧
      Created args k base types capCols rows (DataFrame.frame args base types rows capCols k)
        (puts ++ [put]) := by
  have hw := DataFrame.writes_serialize hok fun col hcol => by
    obtain ⟨t, c, htmem, rfl⟩ := DataFrame.type_of_mem_columnsFrom hcol
    exact hok.typed t htmem
  refine ⟨(k, ⟨(DataFrame.frame args base types rows capCols k).bytes⟩), ?_,
    ⟨rfl, hok, ht, hext, fun p => ?_⟩⟩
  · rw [addDFToStore_, Value.of_eq hw]
    rfl
  · rw [List.mem_append, List.mem_singleton, hmem]

/-- **`fromArray` gives the dataframe of its elements.** -/
theorem created_of_array (hn : args.numNodes ≠ 0) (hb : args.blockSize ≠ 0) (k : Key)
    (elems : Elements) : ∃ df puts, fromArray args k elems = some (df, puts) ∧
      Created args k (k.indexed 0) [elems.type] 2 elems.rows df puts := by
  obtain ⟨puts, hadd, hmem⟩ := DataFrame.addArray_spec hn hb k elems.type elems.cells
  have hok : (DataFrame.frame args (k.indexed 0) [elems.type] elems.rows 2 k).schema.Ok := by
    refine ⟨by show 1 ≤ UInt64.toNat 2; decide, fun t ht => ?_⟩
    rw [List.mem_singleton.mp ht]
    exact elems.type_ne_field
  have htyped : DataFrame.Typed [elems.type] elems.rows := by
    intro cells hcells
    obtain ⟨c, hc, rfl⟩ := List.mem_map.mp hcells
    rw [List.map_singleton, Elements.type_of_mem_cells hc]
  have hext : k.kStr.val <+: (k.indexed 0).kStr.val := by
    rw [Key.indexed_kStr]
    exact List.prefix_append _ _
  have hputs : ∀ p, p ∈ puts ↔
      p ∈ DataFrame.framePuts args (k.indexed 0) [elems.type] elems.rows := fun p => by
    rw [Elements.rows, hmem]
  obtain ⟨put, hput, hcreated⟩ := created_of_frame hok htyped hext hputs
  refine ⟨_, puts ++ [put], ?_, hcreated⟩
  rw [fromArray, hadd]
  show (addDFToStore_ _).bind _ = _
  rw [← Elements.rows, hput]
  rfl

/-- **`fromVisitor` gives the dataframe of the rows its writer fills.** -/
theorem created_of_visitor (hn : args.numNodes ≠ 0) (hb : args.blockSize ≠ 0) (k : Key)
    {scm : Str} (hlen : scm.length < 2 ^ 64) (hscm : scm.mapM DataType.charToType = some types)
    {σ : Type} {w : Writer σ} {s : σ} (hw : w.Emits (Schema.ofCols types) 0 s rows) {fuel : Nat}
    (hf : rows.length < fuel) :
    ∃ capCols df puts, fromVisitor args fuel k scm w s = some (df, puts) ∧
      Created args k k types capCols rows df puts := by
  obtain ⟨capCols, hnew, hok⟩ := DataFrame.ofTypes_spec hb k hlen hscm
  obtain ⟨puts, hvisit, hmem⟩ := DataFrame.visit_spec hn hb k k hok hw hf
  have hok' : (DataFrame.frame args k types rows capCols k).schema.Ok := ⟨hok.fits, hok.typed⟩
  obtain ⟨put, hput, hcreated⟩ := created_of_frame hok' hw.types (List.prefix_refl _)
    fun p => (hmem p).symm
  refine ⟨capCols, _, puts ++ [put], ?_, hcreated⟩
  rw [fromVisitor, hnew]
  show (DataFrame.visit args w fuel s _).bind _ = _
  rw [hvisit]
  show (addDFToStore_ _).bind _ = _
  rw [hput]
  rfl

/-- `df` and `puts` come from a `from` function called for key `k`; what it was given has
no more rows than a `size_t` counts. -/
inductive Makes (args : Args) (k : Key) (df : DataFrame) (puts : List Put) : Prop
  | fromArray (elems : Elements) : elems.cells.length < 2 ^ 64 →
      fromArray args k elems = some (df, puts) → Makes args k df puts
  | fromVisitor {σ : Type} (scm : Str) (w : Writer σ) (s : σ) (fuel : Nat) :
      scm.length < 2 ^ 64 → fuel ≤ 2 ^ 64 →
      fromVisitor args fuel k scm w s = some (df, puts) → Makes args k df puts
  | fromFile {σ : Type} (typesChar : Str) (sw : Writer σ) (s : σ) (fuel : Nat) :
      typesChar.length < 2 ^ 64 → fuel ≤ 2 ^ 64 →
      fromFile args fuel k typesChar sw s = some (df, puts) → Makes args k df puts

theorem created_of_fromVisitor (hn : args.numNodes ≠ 0) (hb : args.blockSize ≠ 0) {σ : Type}
    {scm : Str} {w : Writer σ} {s : σ} {fuel : Nat} (hlen : scm.length < 2 ^ 64)
    (h : fromVisitor args fuel k scm w s = some (df, puts)) :
    ∃ types capCols rows, w.Emits (Schema.ofCols types) 0 s rows ∧ rows.length < fuel ∧
      scm.mapM DataType.charToType = some types ∧ Created args k k types capCols rows df puts := by
  obtain ⟨df₀, hnew, hrest⟩ := Option.bind_eq_some_iff.mp h
  obtain ⟨schema, -, hnew'⟩ := Option.bind_eq_some_iff.mp hnew
  obtain ⟨types, hscm, -⟩ := Option.bind_eq_some_iff.mp hnew'
  obtain ⟨capCols, hofTypes, hok⟩ := DataFrame.ofTypes_spec hb k hlen hscm
  rw [hofTypes] at hnew
  cases hnew
  obtain ⟨r, hvisit, -⟩ := Option.bind_eq_some_iff.mp hrest
  obtain ⟨rows, hemits, hf⟩ := DataFrame.emits_of_visit hb hok hvisit
  obtain ⟨capCols', df', puts', hfrom, hcreated⟩ :=
    created_of_visitor hn hb k hlen hscm hemits hf
  rw [h] at hfrom
  cases hfrom
  exact ⟨types, capCols', rows, hemits, hf, hscm, hcreated⟩

/-- **Every `from` function that returns gives the dataframe of some rows.** -/
theorem created_of_makes (hn : args.numNodes ≠ 0) (hb : args.blockSize ≠ 0)
    (h : Makes args k df puts) : ∃ base types capCols rows,
      Created args k base types capCols rows df puts ∧ rows.length < 2 ^ 64 := by
  cases h with
  | fromArray elems hr h =>
    obtain ⟨df', puts', hfrom, hcreated⟩ := created_of_array hn hb k elems
    rw [h] at hfrom
    cases hfrom
    exact ⟨_, _, _, _, hcreated, by rwa [Elements.rows, List.length_map]⟩
  | fromVisitor scm w s fuel hlen hfuel h =>
    obtain ⟨types, capCols, rows, -, hf, -, hcreated⟩ := created_of_fromVisitor hn hb hlen h
    exact ⟨_, _, _, _, hcreated, by omega⟩
  | fromFile scm w s fuel hlen hfuel h =>
    obtain ⟨types, capCols, rows, -, hf, -, hcreated⟩ := created_of_fromVisitor hn hb hlen h
    exact ⟨_, _, _, _, hcreated, by omega⟩

/-- `log` has all of `puts`, and no other put under one of their keys. -/
structure Undisturbed (puts log : List Put) : Prop where
  mem : ∀ p ∈ puts, p ∈ log
  only : ∀ p ∈ log, ∀ q ∈ puts, p.1 = q.1 → p ∈ puts

theorem undisturbed_self (puts : List Put) : Undisturbed puts puts :=
  ⟨fun _ hp => hp, fun _ hp _ _ _ => hp⟩

theorem Created.applied (h : Created args k base types capCols rows df puts) {log : List Put}
    (hlog : Undisturbed puts log) {p : Put} (hp : p ∈ puts) : applied log p.1 = some p.2 :=
  applied_of_mem (hlog.mem p hp) fun q hq he => h.key_inj (hlog.only q hq p hp he) hp he

/-- **Once its puts are applied, a dataframe shows its rows**, and `waitAndGet` returns an
equal one. -/
theorem Created.shows (h : Created args k base types capCols rows df puts) {log : List Put}
    (hlog : Undisturbed puts log) (hr : rows.length < 2 ^ 64) :
    waitAndGet (Eau2.applied log) k = some df ∧
      df.Shows args (Eau2.applied log) types rows := by
  have hframe := h.df_eq
  have hok := h.ok
  subst hframe
  refine ⟨?_, DataFrame.shows_frame h.typed capCols k fun p hp =>
    h.applied hlog ((h.mem_puts p).mpr (Or.inl hp))⟩
  have hput := h.applied hlog ((h.mem_puts _).mpr (Or.inr rfl))
  rw [waitAndGet, hput, Option.bind_eq_bind, Option.bind_some, getHelper_]
  exact Value.read_eq (DataFrame.reads_deserialize hok hr)

/-- The handle has the rows, and whatever is read, in whatever order, is what is in them. -/
structure Gives (args : Args) (store : Store) (types : List DataType) (rows : List (List Cell))
    (df : DataFrame) : Prop where
  nrows : df.nrows.toNat = rows.length
  ncols : df.ncols = types.length
  reads : ∀ (qs : List (Nat × Nat)) (cells : List Cell),
    List.Forall₂ (fun q cell => rows[q.2]?.bind (·[q.1]?) = some cell) qs cells →
      ∃ df', df.getAll args store qs = some (cells, df')

/-- Both the handle that was returned and the one in the store give `rows`, once `puts` are
applied. -/
def ReadsBack (args : Args) (k : Key) (types : List DataType) (rows : List (List Cell))
    (df : DataFrame) (puts : List Put) : Prop :=
  ∀ log, Undisturbed puts log → Gives args (applied log) types rows df ∧
    ∃ df', waitAndGet (applied log) k = some df' ∧ Gives args (applied log) types rows df'

theorem Created.readsBack (hn : args.numNodes ≠ 0) (hb : args.blockSize ≠ 0)
    (h : Created args k base types capCols rows df puts) (hr : rows.length < 2 ^ 64) :
    ReadsBack args k types rows df puts := by
  intro log hlog
  obtain ⟨hget, hshows⟩ := h.shows hlog hr
  have hgives : Gives args (Eau2.applied log) types rows df := by
    refine ⟨?_, ?_, fun qs cells hq => ?_⟩
    · rw [hshows.nrows]
      exact UInt64.toNat_ofNat_of_lt' hr
    · rw [DataFrame.ncols, Schema.width, hshows.schema]
    · obtain ⟨df', hall, -⟩ := DataFrame.getAll_spec hn hb hshows h.typed hq
      exact ⟨df', hall⟩
  exact ⟨hgives, df, hget, hgives⟩

/-- **What is written to a dataframe is what is read from it**, through the handle that comes
back and through the one that any node gets from the store: for an array of any type and
length, and for any writer that sets every column of every row. -/
theorem reads_back {args : Args} (hn : args.numNodes ≠ 0) (hb : args.blockSize ≠ 0) (k : Key) :
    (∀ elems : Elements, elems.cells.length < 2 ^ 64 →
      ∃ df puts, fromArray args k elems = some (df, puts) ∧
        ReadsBack args k [elems.type] elems.rows df puts) ∧
    ∀ (σ : Type) (w : Writer σ) (s : σ) (scm : Str) (types : List DataType)
      (rows : List (List Cell)), scm.length < 2 ^ 64 →
      scm.mapM DataType.charToType = some types → w.Emits (Schema.ofCols types) 0 s rows →
      rows.length < 2 ^ 64 → ∀ fuel, rows.length < fuel →
        ∃ df puts, fromVisitor args fuel k scm w s = some (df, puts) ∧
          ReadsBack args k types rows df puts := by
  constructor
  · intro elems hr
    obtain ⟨df, puts, hfrom, hcreated⟩ := created_of_array hn hb k elems
    exact ⟨df, puts, hfrom, hcreated.readsBack hn hb (by rwa [Elements.rows, List.length_map])⟩
  · intro σ w s scm types rows hlen hscm hw hr fuel hf
    obtain ⟨capCols, df, puts, hfrom, hcreated⟩ := created_of_visitor hn hb k hlen hscm hw hf
    exact ⟨df, puts, hfrom, hcreated.readsBack hn hb hr⟩

end Created

def upTo (n : Nat) : Writer Nat where
  visit i r := (r.set 0 (.int (Int32.ofNat i))).map fun r => (i + 1, r)
  done i := some (decide (n ≤ i), i)
  scm_eq := by
    intro s r s' r' h
    obtain ⟨r₁, hset, h⟩ := Option.map_eq_some_iff.mp h
    cases h
    exact Row.scm_set hset

theorem emits_upTo (n i : Nat) (j : SizeT) : (upTo n).Emits (Schema.ofCols [.Integer]) j i
    ((List.range' i (n - i)).map fun i => [.int (Int32.ofNat i)]) := by
  generalize hd : n - i = d
  induction d generalizing i j with
  | zero => exact Writer.Emits.done j i i (by simp [upTo]; omega)
  | succ d ih =>
    obtain ⟨r, hset, hr⟩ := Row.set_unset (c := .int (Int32.ofNat i))
      (show (Schema.ofCols [.Integer]).types = _ from rfl) j
    rw [List.range'_succ, List.map_cons]
    refine Writer.Emits.visit j i i (i + 1) r _ _ ?_ ?_ hr (ih (i + 1) (j + 1) (by omega))
    · simp [upTo]
      omega
    · simp only [upTo, hset, Option.map_some]

/-- Five integers in blocks of two, on two nodes. -/
theorem reads_back_upTo :
    ∃ df puts, fromVisitor ⟨2, 2⟩ 6 ⟨⟨[100], by decide⟩, 1⟩ [73] (upTo 5) 0 = some (df, puts) ∧
      ReadsBack ⟨2, 2⟩ ⟨⟨[100], by decide⟩, 1⟩ [.Integer]
        [[.int 0], [.int 1], [.int 2], [.int 3], [.int 4]] df puts := by
  have hn : (⟨2, 2⟩ : Args).numNodes ≠ 0 := by decide
  have hb : (⟨2, 2⟩ : Args).blockSize ≠ 0 := by decide
  exact (reads_back hn hb ⟨⟨[100], by decide⟩, 1⟩).2 Nat (upTo 5) 0 [73] [.Integer] _ (by decide)
    rfl (emits_upTo 5 0 0) (by decide) 6 (by decide)

end DataToDf

end Eau2
