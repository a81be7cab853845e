import Eau2.Dataframe.LocalMap
import Eau2.Network.Pseudo.Applications

/-!
# Dataframes over the calls of a node

The functions of the dataframe layer that use the store, as programs that make calls:
`getValue` in `getBlockFromStore_` and `waitAndGet`, `put` in `addBlockToStore_` and
`addDFToStore_`.  An assertion that fails, or a `nullptr` that is used, ends the program
(`OptionT`).

* `Queries`: a program reads what a function of the store says.  Every reading function of
  the layer is one of these (`queries_getItem`, `queries_get`, `queries_waitAndGet`).
* `runs_putAll`: puts under new keys are made.
* `Within`: the calls are for keys of nodes that there are (`homed_ofApps`).
-/

namespace Eau2

open Pseudo

abbrev Calls (α : Type) := OptionT (Prog Op (Option Value)) α

def Runs {α : Type} (i : SizeT) (p : Calls α) (w : Written) (a : α) (w' : Written) : Prop :=
  p.run.exec (Written.call i) w = some (some a, w')

/-- The program only reads, and `f` says what. -/
def Queries {α : Type} (p : Calls α) (f : Store → Option α) : Prop :=
  ∀ i w a w', Runs i p w a w' ↔ f w.values = some a ∧ w' = w

def Within {α : Type} (n : SizeT) (p : Calls α) : Prop :=
  p.run.All fun op => op.key.homeNode < n

namespace Calls

variable {α β : Type}

def ofOption (o : Option α) : Calls α := OptionT.mk (pure o)

/-- `getValue(k, true)`. -/
def wait (k : Key) : Calls Value := OptionT.mk (Prog.request (.getValue k true))

/-- `getValue(k, false)`, and the use of what it returns. -/
def take (k : Key) : Calls Value := OptionT.mk (Prog.request (.getValue k false))

def put (p : Put) : Calls Unit :=
  OptionT.mk (Prog.request (.put p.1 p.2) >>= fun _ => pure (some ()))

def putAll (puts : List Put) : Calls Unit := puts.forM put

end Calls

/-! ### Rules -/

section Rules

variable {α β : Type} {i n : SizeT} {w w' w'' : Written}

theorem runs_pure {a b : α} : Runs i (pure a) w b w' ↔ b = a ∧ w' = w := by
  show some (some a, w) = some (some b, w') ↔ _
  rw [Option.some.injEq, Prod.mk.injEq, Option.some.injEq]
  exact and_congr eq_comm eq_comm

theorem runs_ofOption {o : Option α} {a : α} :
    Runs i (Calls.ofOption o) w a w' ↔ o = some a ∧ w' = w := by
  show some (o, w) = some (some a, w') ↔ _
  rw [Option.some.injEq, Prod.mk.injEq]
  exact and_congr Iff.rfl eq_comm

/-- **One program after another.** -/
theorem runs_bind {p : Calls α} {f : α → Calls β} {b : β} :
    Runs i (p >>= f) w b w'' ↔ ∃ a w', Runs i p w a w' ∧ Runs i (f a) w' b w'' := by
  rw [Runs, OptionT.run_bind, Option.elimM, Prog.exec_bind, Option.bind_eq_some_iff]
  constructor
  · rintro ⟨⟨o, w₁⟩, hp, hf⟩
    cases o with
    | none => cases hf
    | some a => exact ⟨a, w₁, hp, hf⟩
  · rintro ⟨a, w₁, hp, hf⟩
    exact ⟨(some a, w₁), hp, hf⟩

theorem Runs.bind {p : Calls α} {f : α → Calls β} {a : α} {b : β} (hp : Runs i p w a w')
    (hf : Runs i (f a) w' b w'') : Runs i (p >>= f) w b w'' :=
  runs_bind.mpr ⟨a, w', hp, hf⟩

theorem runs_put {p : Put} (h : w p.1 = none ∨ w p.1 = some (i, p.2)) :
    Runs i (Calls.put p) w () (w.put i p.1 p.2) := by
  rw [Runs, Calls.put, OptionT.run_mk, Prog.exec_bind, Prog.exec_request]
  show (if _ then some (none, w.put i p.1 p.2) else none).bind _ = _
  rw [if_pos h]
  rfl

def Pseudo.Written.putAll (w : Written) (i : SizeT) (puts : List Put) : Written :=
  puts.foldl (fun w p => w.put i p.1 p.2) w

theorem Pseudo.Written.putAll_of_not_mem {w : Written} {puts : List Put} {k : Key}
    (h : ∀ p ∈ puts, p.1 ≠ k) : w.putAll i puts k = w k := by
  induction puts generalizing w with
  | nil => rfl
  | cons p puts ih =>
    rw [putAll, List.foldl_cons, ← putAll, ih fun q hq => h q (List.mem_cons_of_mem p hq)]
    exact Function.update_of_ne (h p List.mem_cons_self).symm _ _

theorem Pseudo.Written.putAll_of_mem {w : Written} {puts : List Put}
    (hinj : ∀ p ∈ puts, ∀ q ∈ puts, p.1 = q.1 → p = q) {p : Put} (hp : p ∈ puts) :
    w.putAll i puts p.1 = some (i, p.2) := by
  induction puts using List.reverseRecOn with
  | nil => cases hp
  | append_singleton puts q ih =>
    rw [putAll, List.foldl_append, ← putAll]
    show (w.putAll i puts).put i q.1 q.2 p.1 = _
    rw [put, Function.update_apply]
    split
    · rename_i he
      rw [hinj p hp q (List.mem_append_right _ List.mem_cons_self) he]
    · rename_i he
      refine ih (fun p hp q hq => hinj p (List.mem_append_left _ hp) q
        (List.mem_append_left _ hq)) ((List.mem_append.mp hp).resolve_right fun hq => ?_)
      exact he (congrArg Prod.fst (List.mem_singleton.mp hq))

/-- **Puts under new keys are made**, if those under one key are the same. -/
theorem runs_putAll {puts : List Put} (hnew : ∀ p ∈ puts, w p.1 = none)
    (hinj : ∀ p ∈ puts, ∀ q ∈ puts, p.1 = q.1 → p = q) :
    Runs i (Calls.putAll puts) w () (w.putAll i puts) := by
  suffices h : ∀ (l : List Put) (w : Written), (∀ p ∈ l, p ∈ puts) →
      (∀ p ∈ puts, w p.1 = none ∨ w p.1 = some (i, p.2)) →
      Runs i (Calls.putAll l) w () (w.putAll i l) from
    h puts w (fun _ hp => hp) fun p hp => Or.inl (hnew p hp)
  intro l
  induction l with
  | nil => exact fun w _ _ => runs_pure.mpr ⟨rfl, rfl⟩
  | cons p l ih =>
    intro w hsub hw
    have hp := hsub p List.mem_cons_self
    refine (runs_put (hw p hp)).bind (ih _ (fun q hq => hsub q (List.mem_cons_of_mem p hq)) ?_)
    intro q hq
    rw [Written.put, Function.update_apply]
    split
    · rename_i he
      rw [hinj q hq p hp he]
      exact Or.inr rfl
    · exact hw q hq

/-- A loop over `s`, `s + 1`, … that only reads: `I r` is true before turn `r`. -/
theorem runs_foldlM_range' {f : α → ℕ → Calls α} {I : ℕ → α → Prop} {s m : ℕ}
    (hstep : ∀ r, s ≤ r → r < s + m → ∀ a, I r a → ∃ a', Runs i (f a r) w a' w ∧ I (r + 1) a')
    {a : α} (ha : I s a) :
    ∃ a', Runs i ((List.range' s m).foldlM f a) w a' w ∧ I (s + m) a' := by
  induction m generalizing s a with
  | zero => exact ⟨a, runs_pure.mpr ⟨rfl, rfl⟩, ha⟩
  | succ m ih =>
    obtain ⟨a₁, hrun₁, ha₁⟩ := hstep s (Nat.le_refl s) (by omega) a ha
    obtain ⟨a', hrun, ha'⟩ := ih (fun r hr hlt => hstep r (by omega) (by omega)) ha₁
    rw [List.range'_succ, List.foldlM_cons]
    exact ⟨a', hrun₁.bind hrun, by rwa [Nat.add_right_comm] at ha'⟩

/-! ### Programs that read -/

theorem Queries.pure (a : α) : Queries (pure a) fun _ => some a := by
  intro i w b w'
  rw [runs_pure, Option.some.injEq]
  exact and_congr eq_comm Iff.rfl

theorem Queries.ofOption (o : Option α) : Queries (Calls.ofOption o) fun _ => o :=
  fun _ _ _ _ => runs_ofOption

theorem Queries.wait (k : Key) : Queries (Calls.wait k) fun store => store k := by
  intro i w v w'
  rw [Runs, Calls.wait, OptionT.run_mk, Prog.exec_request]
  show (w.values k).map _ = _ ↔ _
  rw [Option.map_eq_some_iff]
  constructor
  · rintro ⟨v', hv, he⟩
    cases he
    exact ⟨hv, rfl⟩
  · rintro ⟨hv, rfl⟩
    exact ⟨v, hv, rfl⟩

theorem Queries.bind {p : Calls α} {f : Store → Option α} {q : α → Calls β}
    {g : α → Store → Option β} (hp : Queries p f) (hq : ∀ a, Queries (q a) (g a)) :
    Queries (p >>= q) fun store => (f store).bind fun a => g a store := by
  intro i w b w'
  rw [runs_bind, Option.bind_eq_some_iff]
  constructor
  · rintro ⟨a, w₁, hr, hr'⟩
    obtain ⟨ha, rfl⟩ := (hp i w a w₁).mp hr
    obtain ⟨hb, rfl⟩ := (hq a i w₁ b w').mp hr'
    exact ⟨⟨a, ha, hb⟩, rfl⟩
  · rintro ⟨⟨a, ha, hb⟩, rfl⟩
    exact ⟨a, w', (hp i w' a w').mpr ⟨ha, rfl⟩, (hq a i w' b w').mpr ⟨hb, rfl⟩⟩

theorem Queries.ite {c : Prop} [Decidable c] {p q : Calls α} {f g : Store → Option α}
    (hp : Queries p f) (hq : Queries q g) :
    Queries (if c then p else q) fun store => if c then f store else g store := by
  by_cases h : c
  · simpa only [if_pos h] using hp
  · simpa only [if_neg h] using hq

theorem Queries.foldlM {γ : Type} {q : β → γ → Calls β} {g : β → γ → Store → Option β}
    (h : ∀ b c, Queries (q b c) (g b c)) (l : List γ) (b : β) :
    Queries (l.foldlM q b) fun store => l.foldlM (fun b c => g b c store) b := by
  induction l generalizing b with
  | nil => exact .pure b
  | cons c l ih =>
    simp only [List.foldlM_cons]
    exact (h b c).bind ih

theorem Queries.runs {p : Calls α} {f : Store → Option α} (h : Queries p f) {a : α}
    (ha : f w.values = some a) : Runs i p w a w := (h i w a w).mpr ⟨ha, rfl⟩

/-! ### The nodes of the keys -/

theorem Within.pure (a : α) : Within n (pure a) := .ret _

theorem Within.ofOption (o : Option α) : Within n (Calls.ofOption o) := .ret _

theorem Within.wait {k : Key} (hk : k.homeNode < n) : Within n (Calls.wait k) :=
  .request hk

theorem Within.take {k : Key} (hk : k.homeNode < n) : Within n (Calls.take k) :=
  .request hk

theorem Within.put {p : Put} (hp : p.1.homeNode < n) : Within n (Calls.put p) :=
  .bind (.request hp) fun _ => .ret _

theorem Within.bind_of {p : Calls α} {f : α → Calls β} (hp : Within n p)
    (hf : ∀ a, p.run.MayReturn (some a) → Within n (f a)) : Within n (p >>= f) := by
  refine Prog.All.bind_of hp fun o ho => ?_
  cases o with
  | none => exact .ret _
  | some a => exact hf a ho

theorem Within.bind {p : Calls α} {f : α → Calls β} (hp : Within n p) (hf : ∀ a, Within n (f a)) :
    Within n (p >>= f) := hp.bind_of fun a _ => hf a

theorem Within.ite {c : Prop} [Decidable c] {p q : Calls α} (hp : Within n p) (hq : Within n q) :
    Within n (if c then p else q) := by
  split
  · exact hp
  · exact hq

theorem eq_of_mayReturn_pure {a b : α} (h : (pure a : Calls α).run.MayReturn (some b)) :
    b = a := by
  cases h
  rfl

theorem eq_of_mayReturn_ofOption {o : Option α} {a : α}
    (h : (Calls.ofOption o).run.MayReturn (some a)) : o = some a := by
  cases h
  rfl

theorem exists_of_mayReturn_bind {p : Calls α} {f : α → Calls β} {b : β}
    (h : (p >>= f).run.MayReturn (some b)) :
    ∃ a, p.run.MayReturn (some a) ∧ (f a).run.MayReturn (some b) := by
  obtain ⟨o, ho, hb⟩ := Prog.MayReturn.of_bind h
  cases o with
  | none => cases hb
  | some a => exact ⟨a, ho, hb⟩

theorem Within.ofOption_bind {o : Option α} {f : α → Calls β}
    (hf : ∀ a, o = some a → Within n (f a)) : Within n (Calls.ofOption o >>= f) :=
  (Within.ofOption o).bind_of fun a ha => hf a (eq_of_mayReturn_ofOption ha)

theorem Within.putAll {puts : List Put} (h : ∀ p ∈ puts, p.1.homeNode < n) :
    Within n (Calls.putAll puts) := by
  induction puts with
  | nil => exact .pure ()
  | cons p puts ih =>
    exact (Within.put (h p List.mem_cons_self)).bind fun _ =>
      ih fun q hq => h q (List.mem_cons_of_mem p hq)

theorem Within.foldlM_of {γ : Type} {f : β → γ → Calls β} {Q : β → Prop}
    (hf : ∀ b c, Q b → Within n (f b c))
    (hQ : ∀ b c b', Q b → (f b c).run.MayReturn (some b') → Q b') (l : List γ) {b : β} (hb : Q b) :
    Within n (l.foldlM f b) := by
  induction l generalizing b with
  | nil => exact .pure b
  | cons c l ih =>
    rw [List.foldlM_cons]
    exact (hf b c hb).bind_of fun b' hb' => ih (hQ b c b' hb hb')

theorem Within.foldlM {γ : Type} {f : β → γ → Calls β} (hf : ∀ b c, Within n (f b c)) (l : List γ)
    (b : β) : Within n (l.foldlM f b) :=
  Within.foldlM_of (Q := fun _ => True) (fun b c _ => hf b c) (fun _ _ _ _ _ => trivial) l trivial

end Rules

/-! ### Reading -/

namespace Calls

def getBlockFromStore_ (t : DataType) (k : Key) : Calls Block := do
  let val ← wait k
  ofOption (val.read (Block.deserialize t))

namespace DistributedArray

def fetch (t : DataType) (k : Key) (da : DistributedArray) : Calls DistributedArray :=
  if da.cache.containsKey k then pure da
  else do
    let val ← getBlockFromStore_ t k
    let cache ← ofOption (da.cache.put k val)
    pure { da with cache := cache }

def getItem (t : DataType) (k : Key) (itemIdx : Nat) (da : DistributedArray) :
    Calls (Cell × DistributedArray) := do
  let da ← fetch t k da
  let block ← ofOption (da.cache.getBlock k)
  if block.type = t then do
    let cell ← ofOption (block.get itemIdx)
    pure (cell, da)
  else ofOption none

end DistributedArray

namespace Column

def get (args : Args) (t : DataType) (idx colIdx : Nat) (col : Column) :
    Calls (Cell × Column) :=
  if col.type ≠ t then do
    let c ← ofOption (Column.wrongType t)
    pure (c, col)
  else if args.blockSize = 0 then ofOption none
  else do
    let k ← ofOption
      (Column.genKey_ args col.baseKey (idx / args.blockSize.toNat) colIdx)
    let (c, blocks) ← DistributedArray.getItem t k (idx % args.blockSize.toNat) col.blocks
    pure (c, { col with blocks := blocks })

end Column

namespace DataFrame

def get (args : Args) (t : DataType) (col row : Nat) (df : DataFrame) :
    Calls (Cell × DataFrame) := do
  let c ← ofOption df.columns[col]?
  let (cell, c) ← Column.get args t row col c
  pure (cell, { df with columns := df.columns.set col c })

def setRowValByColType_ (args : Args) (r : Row) (colIdx rowIdx : Nat) (colType : DataType)
    (df : DataFrame) : Calls (Row × DataFrame) := do
  let (cell, df) ← get args colType colIdx rowIdx df
  let r ← ofOption (r.set colIdx cell)
  pure (r, df)

def fillCol (args : Args) (rowIdx : Nat) (p : Row × DataFrame) (colIdx : Nat) :
    Calls (Row × DataFrame) := do
  let t ← ofOption (p.2.schema.colType colIdx)
  setRowValByColType_ args p.1 colIdx rowIdx t p.2

def visitRow {ρ : Type} (args : Args) (row : Row) (rd : Reader ρ) (p : ρ × DataFrame)
    (rowIdx : Nat) : Calls (ρ × DataFrame) := do
  let (r, df) ← (List.range row.width).foldlM (fillCol args rowIdx)
    (row.setIdx (UInt64.ofNat rowIdx), p.2)
  let s ← ofOption (rd p.1 r)
  pure (s, df)

def mapRange {ρ : Type} (args : Args) (rd : Reader ρ) (startIdx endIdx : Nat)
    (p : ρ × DataFrame) : Calls (ρ × DataFrame) := do
  let row ← ofOption (Row.new p.2.schema)
  (List.range' startIdx (endIdx - startIdx)).foldlM (visitRow args row rd) p

def map {ρ : Type} (args : Args) (rd : Reader ρ) (p : ρ × DataFrame) : Calls (ρ × DataFrame) :=
  mapRange args rd 0 p.2.nrows.toNat p

def localMapLoop {ρ : Type} (args : Args) (storeId : SizeT) (row : Row) (rd : Reader ρ) :
    Nat → SizeT → ρ × DataFrame → Calls (ρ × DataFrame)
  | 0, _, _ => ofOption none
  | fuel + 1, rowIdx, p =>
    if rowIdx < p.2.nrows then
      if args.blockSize = 0 ∨ args.numNodes = 0 then ofOption none
      else if rowIdx / args.blockSize % args.numNodes = storeId then do
        let p ← visitRow args row rd p rowIdx.toNat
        localMapLoop args storeId row rd fuel (rowIdx + 1) p
      else localMapLoop args storeId row rd fuel (rowIdx + (args.blockSize - 1) + 1) p
    else pure p

def localMap {ρ : Type} (args : Args) (storeId : SizeT) (fuel : Nat) (rd : Reader ρ)
    (p : ρ × DataFrame) : Calls (ρ × DataFrame) := do
  let row ← ofOption (Row.new p.2.schema)
  localMapLoop args storeId row rd fuel 0 p

end DataFrame

def waitAndGet (k : Key) : Calls DataFrame := do
  let val ← wait k
  ofOption (getHelper_ val)

def get (k : Key) : Calls DataFrame := do
  let val ← take k
  ofOption (getHelper_ val)

/-! ### Writing -/

/-- A `from` function: its puts, in order. -/
def create (o : Option (DataFrame × List Put)) : Calls DataFrame := do
  let (df, puts) ← ofOption o
  putAll puts
  pure df

def fromArray (args : Args) (k : Key) (elems : DataToDf.Elements) : Calls DataFrame :=
  create (DataToDf.fromArray args k elems)

def fromDouble (args : Args) (k : Key) (elem : UInt64) : Calls DataFrame :=
  create (DataToDf.fromDouble args k elem)

def fromVisitor {σ : Type} (args : Args) (fuel : Nat) (k : Key) (scm : Str) (w : Writer σ)
    (s : σ) : Calls DataFrame := create (DataToDf.fromVisitor args fuel k scm w s)

end Calls

/-! ### What the functions read -/

theorem queries_getBlockFromStore (t : DataType) (k : Key) : Queries (Calls.getBlockFromStore_ t k)
    fun store => DistributedArray.getBlockFromStore_ store t k :=
  (Queries.wait k).bind fun val => .ofOption (val.read (Block.deserialize t))

theorem queries_fetch (t : DataType) (k : Key) (da : DistributedArray) :
    Queries (Calls.DistributedArray.fetch t k da) fun store => da.fetch store t k :=
  .ite (.pure da) ((queries_getBlockFromStore t k).bind fun val =>
    (Queries.ofOption (da.cache.put k val)).bind fun cache => .pure { da with cache := cache })

theorem queries_getItem (t : DataType) (k : Key) (itemIdx : Nat) (da : DistributedArray) :
    Queries (Calls.DistributedArray.getItem t k itemIdx da)
      fun store => da.getItem store t k itemIdx :=
  (queries_fetch t k da).bind fun da => (Queries.ofOption (da.cache.getBlock k)).bind fun block =>
    .ite ((Queries.ofOption (block.get itemIdx)).bind fun cell => .pure (cell, da)) (.ofOption none)

theorem queries_column_get (args : Args) (t : DataType) (idx colIdx : Nat) (col : Column) :
    Queries (Calls.Column.get args t idx colIdx col) fun store => col.get args store t idx colIdx :=
  .ite ((Queries.ofOption (Column.wrongType t)).bind fun c => .pure (c, col))
    (.ite (.ofOption none) ((Queries.ofOption _).bind fun k =>
      (queries_getItem t k _ col.blocks).bind fun p => .pure (p.1, { col with blocks := p.2 })))

/-- **A getter over calls is the getter over the store.** -/
theorem queries_get (args : Args) (t : DataType) (col row : Nat) (df : DataFrame) :
    Queries (Calls.DataFrame.get args t col row df) fun store => df.get args store t col row :=
  (Queries.ofOption df.columns[col]?).bind fun c => (queries_column_get args t row col c).bind fun p =>
    .pure (p.1, { df with columns := df.columns.set col p.2 })

theorem queries_visitRow {ρ : Type} (args : Args) (row : Row) (rd : Reader ρ) (p : ρ × DataFrame)
    (rowIdx : Nat) : Queries (Calls.DataFrame.visitRow args row rd p rowIdx)
      fun store => DataFrame.visitRow args store row rd p rowIdx := by
  have hfill : ∀ q c, Queries (Calls.DataFrame.fillCol args rowIdx q c)
      fun store => DataFrame.fillCol args store rowIdx q c := fun q c =>
    (Queries.ofOption (q.2.schema.colType c)).bind fun t => (queries_get args t c rowIdx q.2).bind
      fun x => (Queries.ofOption (q.1.set c x.1)).bind fun r => .pure (r, x.2)
  exact (Queries.foldlM hfill (List.range row.width) _).bind fun q =>
    (Queries.ofOption (rd p.1 q.1)).bind fun s => .pure (s, q.2)

/-- **`map` over calls is `map` over the store.** -/
theorem queries_map {ρ : Type} (args : Args) (rd : Reader ρ) (p : ρ × DataFrame) :
    Queries (Calls.DataFrame.map args rd p) fun store => DataFrame.map args store rd p :=
  (Queries.ofOption (Row.new p.2.schema)).bind fun row =>
    .foldlM (fun q i => queries_visitRow args row rd q i) _ p

/-- **`local_map` over calls is `local_map` over the store.** -/
theorem queries_localMap {ρ : Type} (args : Args) (storeId : SizeT) (fuel : Nat) (rd : Reader ρ)
    (p : ρ × DataFrame) : Queries (Calls.DataFrame.localMap args storeId fuel rd p)
      fun store => DataFrame.localMap args store storeId fuel rd p := by
  have hloop : ∀ row fuel rowIdx p,
      Queries (Calls.DataFrame.localMapLoop args storeId row rd fuel rowIdx p)
        fun store => DataFrame.localMapLoop args store storeId row rd fuel rowIdx p := by
    intro row fuel
    induction fuel with
    | zero => exact fun _ _ => .ofOption none
    | succ fuel ih =>
      exact fun rowIdx p => .ite (.ite (.ofOption none) (.ite
        ((queries_visitRow args row rd p rowIdx.toNat).bind fun p => ih (rowIdx + 1) p)
        (ih (rowIdx + (args.blockSize - 1) + 1) p))) (.pure p)
  exact (Queries.ofOption (Row.new p.2.schema)).bind fun row => hloop row fuel 0 p

theorem queries_waitAndGet (k : Key) :
    Queries (Calls.waitAndGet k) fun store => waitAndGet store k :=
  (Queries.wait k).bind fun val => .ofOption (getHelper_ val)

/-! ### The nodes they read from -/

section Within

variable {args : Args}

theorem homeNode_lt (hn : args.numNodes ≠ 0) (b : Nat) :
    UInt64.ofNat (b % args.numNodes.toNat) < args.numNodes := by
  have hlt := Nat.mod_lt b (toNat_pos hn)
  rw [UInt64.lt_iff_toNat_lt, UInt64.toNat_ofNat_of_lt' (Nat.lt_trans hlt args.numNodes.toNat_lt)]
  exact hlt

theorem homeNode_genKey {baseKey k : Key} {b colIdx : Nat}
    (h : Column.genKey_ args baseKey b colIdx = some k) : k.homeNode < args.numNodes := by
  obtain ⟨s, -, h⟩ := Option.bind_eq_some_iff.mp h
  split at h
  · rename_i hs
    cases h
    exact homeNode_lt hs.2 b
  · cases h

theorem within_getItem {t : DataType} {k : Key} (hk : k.homeNode < args.numNodes)
    (itemIdx : Nat) (da : DistributedArray) :
    Within args.numNodes (Calls.DistributedArray.getItem t k itemIdx da) := by
  have hfetch : Within args.numNodes (Calls.DistributedArray.fetch t k da) :=
    .ite (.pure da) (((Within.wait hk).bind fun _ => .ofOption _).bind fun _ =>
      (Within.ofOption _).bind fun _ => .pure _)
  exact hfetch.bind fun _ => (Within.ofOption _).bind fun _ =>
    .ite ((Within.ofOption _).bind fun _ => .pure _) (.ofOption _)

/-- **A getter waits for blocks on nodes that there are.** -/
theorem within_get (t : DataType) (col row : Nat) (df : DataFrame) :
    Within args.numNodes (Calls.DataFrame.get args t col row df) := by
  have hcol : ∀ c : Column, Within args.numNodes (Calls.Column.get args t row col c) := fun c =>
    .ite ((Within.ofOption _).bind fun _ => .pure _) (.ite (.ofOption _)
      (Within.ofOption_bind fun _ hk => (within_getItem (homeNode_genKey hk) _ _).bind fun _ =>
        .pure _))
  exact (Within.ofOption _).bind fun c => (hcol c).bind fun _ => .pure _

theorem within_visitRow {ρ : Type} (row : Row) (rd : Reader ρ) (p : ρ × DataFrame)
    (rowIdx : Nat) : Within args.numNodes (Calls.DataFrame.visitRow args row rd p rowIdx) := by
  have hfill : ∀ q c, Within args.numNodes (Calls.DataFrame.fillCol args rowIdx q c) := fun q c =>
    (Within.ofOption _).bind fun t => (within_get t c rowIdx q.2).bind fun _ =>
      (Within.ofOption _).bind fun _ => .pure _
  exact (Within.foldlM hfill _ _).bind fun _ => (Within.ofOption _).bind fun _ => .pure _

theorem within_map {ρ : Type} (rd : Reader ρ) (p : ρ × DataFrame) :
    Within args.numNodes (Calls.DataFrame.map args rd p) :=
  (Within.ofOption _).bind fun row => .foldlM (fun q i => within_visitRow row rd q i) _ p

theorem within_localMap {ρ : Type} (storeId : SizeT) (fuel : Nat) (rd : Reader ρ)
    (p : ρ × DataFrame) : Within args.numNodes (Calls.DataFrame.localMap args storeId fuel rd p) := by
  have hloop : ∀ row fuel rowIdx p,
      Within args.numNodes (Calls.DataFrame.localMapLoop args storeId row rd fuel rowIdx p) := by
    intro row fuel
    induction fuel with
    | zero => exact fun _ _ => .ofOption none
    | succ fuel ih =>
      exact fun rowIdx p => .ite (.ite (.ofOption none) (.ite
        ((within_visitRow row rd p rowIdx.toNat).bind fun p => ih (rowIdx + 1) p)
        (ih (rowIdx + (args.blockSize - 1) + 1) p))) (.pure p)
  exact (Within.ofOption _).bind fun row => hloop row fuel 0 p

theorem within_waitAndGet {k : Key} (hk : k.homeNode < args.numNodes) :
    Within args.numNodes (Calls.waitAndGet k) :=
  (Within.wait hk).bind fun _ => .ofOption _

theorem within_take {k : Key} (hk : k.homeNode < args.numNodes) :
    Within args.numNodes (Calls.get k) :=
  (Within.take hk).bind fun _ => .ofOption _

theorem within_create {o : Option (DataFrame × List Put)} {n : SizeT}
    (h : ∀ df puts, o = some (df, puts) → ∀ p ∈ puts, p.1.homeNode < n) :
    Within n (Calls.create o) :=
  Within.ofOption_bind fun p hp => (Within.putAll (h p.1 p.2 hp)).bind fun _ => .pure p.1

end Within

theorem homed_ofApps {α : Type} {n : SizeT} {run_ : SizeT → Calls α}
    (h : ∀ i, Within n (run_ i)) : Homed (.ofApps n fun i => (run_ i).run) :=
  fun i _ _ hop => Prog.All.of_next (h i) hop

end Eau2
