import Eau2.Dataframe.SchemaCells

/-!
# Schemas under any sequence of calls

Objects by number, built by any constructor, copied from and sent to each other, and the
list of types that each should have (`columns`).

* `Fits`: the calls that stay inside `types_`.
* `keepsColumns_iff`: **arrays, capacities and columns are right exactly as long as all
  calls are such**.
-/

namespace Eau2.SchemaObj

open Bytes Serializer

/-- Schemas by number, each from `Schema()`. -/
abbrev Schemas := Nat → SchemaObj

inductive Call
  | new (i : Nat)
  | ofTypes (i : Nat) (types : Str)
  | copy (i src : Nat)
  | ofSchema (i src : Nat) (copyRows : Bool)
  | addColumn (i : Nat) (typ : DataType)
  | addColumnChar (i : Nat) (typ : UInt8)
  | addRows (i : Nat) (numRows : SizeT)
  | set (i : Nat) (idx : SizeT) (type : DataType)
  | clear (i : Nat)
  /-- Schema `i` deserializes what schema `src` serializes. -/
  | deserialize (i src : Nat)
  deriving DecidableEq

namespace Call

def target : Call → Nat
  | new i | ofTypes i _ | copy i _ | ofSchema i _ _ | addColumn i _ | addColumnChar i _ |
    addRows i _ | set i _ _ | clear i | deserialize i _ => i

def value (ss : Schemas) : Call → Except Halt SchemaObj
  | new _ => .ok SchemaObj.new
  | ofTypes _ types => SchemaObj.ofTypes types
  | copy _ src => (ss src).copy
  | ofSchema _ src copyRows => (ss src).ofSchema copyRows
  | addColumn i typ => (ss i).addColumn typ
  | addColumnChar i typ => (ss i).addColumnChar typ
  | addRows i numRows => .ok ((ss i).addRows numRows)
  | set i idx type => (ss i).set idx type
  | clear i => .ok (ss i).clear
  | deserialize _ src => (ss src).transfer

def columns (cols : Nat → List DataType) : Call → List DataType
  | new _ | clear _ => []
  | ofTypes _ types => types.filterMap DataType.charToType
  | copy _ src | ofSchema _ src _ | deserialize _ src => cols src
  | addColumn i typ => cols i ++ [typ]
  | addColumnChar i typ => cols i ++ (DataType.charToType typ).toList
  | addRows i _ => cols i
  | set i idx type => (cols i).set idx.toNat type

/-- No column is added to an array without a cell, and no more are copied than an `int`
counts. -/
def Fits (ss : Schemas) : Call → Prop
  | addColumn i _ => (ss i).capCols ≠ 0
  | addColumnChar i typ => (DataType.charToType typ).isSome → (ss i).capCols ≠ 0
  | copy _ src | ofSchema _ src _ => (ss src).width.toNat < 2 ^ 31
  | _ => True

end Call

def step (ss : Schemas) (c : Call) : Except Halt Schemas :=
  (c.value ss).map (Function.update ss c.target)

def run (calls : List Call) : Except Halt Schemas := calls.foldlM step fun _ => new

def columns (calls : List Call) : Nat → List DataType :=
  calls.foldl (fun cols c => Function.update cols c.target (c.columns cols)) fun _ => []

/-- The array has `capCols_` cells, the columns fit, and `col_type` gives their types. -/
structure Keeps (s : SchemaObj) (cols : List DataType) : Prop where
  fits : s.numCols ≤ s.capCols
  allocated : s.types.length = s.capCols.toNat
  width : s.width.toNat = cols.length
  colType : ∀ (idx : SizeT) (h : idx.toNat < cols.length), s.colType idx = .ok cols[idx.toNat]

/-- **All along the calls nothing is accessed outside `types_`**, and the schemas are as
they should be. -/
def KeepsColumns (calls : List Call) : Prop :=
  ∀ made, made <+: calls → match run made with
    | .ok ss => ∀ i, Keeps (ss i) (columns made i)
    | .error .exit => True
    | .error .undefined => False

/-! ### One call -/

def Sound (ss : Schemas) (cols : Nat → List DataType) : Prop :=
  ∀ i, ∃ sch, Shows (ss i) sch ∧ sch.types = cols i

theorem sound_new : Sound (fun _ => new) fun _ => [] := fun _ => ⟨Schema.new, shows_new, rfl⟩

theorem Sound.update {ss : Schemas} {cols : Nat → List DataType} (h : Sound ss cols) (i : Nat)
    {s : SchemaObj} {sch : Schema} (hs : Shows s sch) :
    Sound (Function.update ss i s) (Function.update cols i sch.types) := by
  intro k
  by_cases hk : k = i
  · subst hk
    rw [Function.update_self, Function.update_self]
    exact ⟨sch, hs, rfl⟩
  · rw [Function.update_of_ne hk, Function.update_of_ne hk]
    exact h k

theorem Shows.keeps {s : SchemaObj} {sch : Schema} (h : Shows s sch) : Keeps s sch.types where
  fits := by
    rw [UInt64.le_iff_toNat_le, h.numCols_eq, h.capCols_eq]
    exact h.fits
  allocated := by
    rw [h.types_eq, h.capCols_eq]
    exact length_filled h.fits
  width := h.numCols_eq
  colType idx hidx := by rw [h.colType, List.getElem?_eq_getElem hidx]

/-- What a call leaves: the program ends, or the object is a schema with these types. -/
def Leaves (r : Except Halt SchemaObj) (cols : List DataType) : Prop :=
  r = .error .exit ∨ ∃ s sch, r = .ok s ∧ Shows s sch ∧ sch.types = cols

theorem Shows.leaves_addColumn {s : SchemaObj} {sch : Schema} (h : Shows s sch)
    (hcap : s.capCols ≠ 0) (typ : DataType) : Leaves (s.addColumn typ) (sch.types ++ [typ]) := by
  rcases h.addColumn_cases (by rwa [← h.capCols_eq]) typ with hexit | ⟨s', sch', hadd, -, hs', ht⟩
  · exact Or.inl hexit
  · exact Or.inr ⟨s', sch', hadd, hs', ht⟩

theorem Shows.leaves_ofSchema {s : SchemaObj} {sch : Schema} (h : Shows s sch)
    (hlt : s.width.toNat < 2 ^ 31) (copyRows : Bool) : Leaves (s.ofSchema copyRows) sch.types := by
  have hcopy := h.ofSchema copyRows
  rw [SchemaObj.width, h.numCols_eq] at hlt
  rw [if_pos hlt] at hcopy
  obtain ⟨s', hs', hshows⟩ := hcopy
  exact Or.inr ⟨s', _, hs', hshows, rfl⟩

/-- **A call that fits leaves the types it should.** -/
theorem Sound.leaves {ss : Schemas} {cols : Nat → List DataType} (h : Sound ss cols) {c : Call}
    (hfits : c.Fits ss) : Leaves (c.value ss) (c.columns cols) := by
  cases c with
  | new i => exact Or.inr ⟨_, Schema.new, rfl, shows_new, rfl⟩
  | clear i => exact Or.inr ⟨_, Schema.new, rfl, shows_new, rfl⟩
  | ofTypes i types =>
    rcases ofTypes_cases types with hexit | ⟨s, ts, hmap, hs, hshows⟩
    · exact Or.inl hexit
    · exact Or.inr ⟨s, _, hs, hshows, (filterMap_of_mapM hmap).symm⟩
  | copy i src =>
    obtain ⟨sch, hs, ht⟩ := h src
    rw [Call.columns, ← ht]
    exact hs.leaves_ofSchema hfits true
  | ofSchema i src copyRows =>
    obtain ⟨sch, hs, ht⟩ := h src
    rw [Call.columns, ← ht]
    exact hs.leaves_ofSchema hfits copyRows
  | addColumn i typ =>
    obtain ⟨sch, hs, ht⟩ := h i
    rw [Call.columns, ← ht]
    exact hs.leaves_addColumn hfits typ
  | addColumnChar i typ =>
    obtain ⟨sch, hs, ht⟩ := h i
    rw [Call.columns, ← ht, Call.value, addColumnChar, charToType]
    cases htyp : DataType.charToType typ with
    | none => exact Or.inl rfl
    | some t => exact hs.leaves_addColumn (hfits (by rw [htyp]; rfl)) t
  | addRows i n =>
    obtain ⟨sch, hs, ht⟩ := h i
    exact Or.inr ⟨_, _, rfl, hs.addRows n, ht⟩
  | set i idx type =>
    obtain ⟨sch, hs, ht⟩ := h i
    have hset := hs.set idx type
    rw [Call.columns, ← ht]
    split at hset
    · obtain ⟨s', hs', hshows⟩ := hset
      exact Or.inr ⟨s', _, hs', hshows, rfl⟩
    · exact Or.inl hset
  | deserialize i src =>
    obtain ⟨sch, hs, ht⟩ := h src
    have htransfer := hs.transfer
    rw [Call.columns, ← ht]
    split at htransfer
    · exact Or.inr ⟨_, sch, htransfer, hs, rfl⟩
    · exact Or.inl htransfer

/-- **A call that does not fit is undefined.** -/
theorem Sound.undefined {ss : Schemas} {cols : Nat → List DataType} (h : Sound ss cols) {c : Call}
    (hfits : ¬ c.Fits ss) : c.value ss = .error .undefined := by
  have hcopy : ∀ {src : Nat} (copyRows : Bool), ¬ (ss src).width.toNat < 2 ^ 31 →
      (ss src).ofSchema copyRows = .error .undefined := by
    intro src copyRows hlt
    obtain ⟨sch, hs, -⟩ := h src
    rw [SchemaObj.width, hs.numCols_eq] at hlt
    have := hs.ofSchema copyRows
    rwa [if_neg hlt] at this
  have hadd : ∀ {i : Nat} (typ : DataType), ¬ (ss i).capCols ≠ 0 →
      (ss i).addColumn typ = .error .undefined := by
    intro i typ hcap
    obtain ⟨sch, hs, -⟩ := h i
    exact hs.addColumn_undefined (by rw [← hs.capCols_eq]; exact not_not.mp hcap) typ
  cases c with
  | copy i src => exact hcopy true hfits
  | ofSchema i src copyRows => exact hcopy copyRows hfits
  | addColumn i typ => exact hadd typ hfits
  | addColumnChar i typ =>
    obtain ⟨hsome, hcap⟩ := Classical.not_imp.mp hfits
    obtain ⟨t, ht⟩ := Option.isSome_iff_exists.mp hsome
    rw [Call.value, addColumnChar, charToType_eq ht]
    exact hadd t hcap
  | _ => exact absurd trivial hfits

/-! ### All calls -/

theorem run_append_singleton (calls : List Call) (c : Call) :
    run (calls ++ [c]) = (run calls).bind fun ss => step ss c := by
  rw [run, List.foldlM_append]
  show (run calls).bind _ = _
  refine congrArg (run calls).bind (funext fun ss => ?_)
  rw [List.foldlM_cons]
  exact bind_pure _

theorem columns_append_singleton (calls : List Call) (c : Call) : columns (calls ++ [c]) =
    Function.update (columns calls) c.target (c.columns (columns calls)) := by
  rw [columns, List.foldl_append]
  rfl

def AllFit (calls : List Call) : Prop :=
  ∀ made c ss, made ++ [c] <+: calls → run made = .ok ss → c.Fits ss

theorem AllFit.earlier {calls made : List Call} (h : AllFit calls) (hp : made <+: calls) :
    AllFit made := fun made' c ss hp' => h made' c ss (hp'.trans hp)

/-- **Calls that fit leave every schema with its types.** -/
theorem AllFit.sound {calls : List Call} (h : AllFit calls) :
    run calls = .error .exit ∨ ∃ ss, run calls = .ok ss ∧ Sound ss (columns calls) := by
  induction calls using List.reverseRecOn with
  | nil => exact Or.inr ⟨_, rfl, sound_new⟩
  | append_singleton calls c ih =>
    rw [run_append_singleton, columns_append_singleton]
    rcases ih (h.earlier (List.prefix_append calls [c])) with hexit | ⟨ss, hrun, hsound⟩
    · rw [hexit]
      exact Or.inl rfl
    · rw [hrun]
      rcases hsound.leaves (h calls c ss (List.prefix_refl _) hrun) with
        hexit | ⟨s, sch, hs, hshows, ht⟩
      · left
        show (c.value ss).map _ = _
        rw [hexit]
        rfl
      · right
        refine ⟨Function.update ss c.target s, ?_, ?_⟩
        · show (c.value ss).map _ = _
          rw [hs]
          rfl
        · rw [← ht]
          exact hsound.update c.target hshows

theorem KeepsColumns.earlier {calls made : List Call} (h : KeepsColumns calls)
    (hp : made <+: calls) : KeepsColumns made := fun made' hp' => h made' (hp'.trans hp)

theorem KeepsColumns.allFit {calls : List Call} (h : KeepsColumns calls) : AllFit calls := by
  induction calls using List.reverseRecOn with
  | nil =>
    intro made c ss hp
    exact absurd (List.prefix_nil.mp hp) (by simp)
  | append_singleton calls c ih =>
    have hinit := ih (h.earlier (List.prefix_append calls [c]))
    intro made c' ss hp hrun
    rcases List.prefix_concat_iff.mp hp with heq | hp'
    · obtain ⟨rfl, hc⟩ := List.append_inj' heq rfl
      obtain rfl : c' = c := List.singleton_inj.mp hc
      rcases hinit.sound with hexit | ⟨ss', hrun', hsound⟩
      · rw [hrun] at hexit
        cases hexit
      · obtain rfl : ss = ss' := Except.ok.inj (hrun.symm.trans hrun')
        by_contra hfits
        have hlast := h (made ++ [c']) (List.prefix_refl _)
        rw [run_append_singleton, hrun] at hlast
        have hstep : step ss c' = .error .undefined := by
          rw [step, hsound.undefined hfits]
          rfl
        have hbind : (Except.ok ss).bind (fun ss => step ss c') = .error .undefined := hstep
        rw [hbind] at hlast
        exact hlast
    · exact hinit made c' ss hp' hrun

/-- **Schemas keep their columns exactly as long as every call fits.** -/
theorem keepsColumns_iff (calls : List Call) : KeepsColumns calls ↔
    ∀ made c ss, made ++ [c] <+: calls → run made = .ok ss → c.Fits ss := by
  refine ⟨KeepsColumns.allFit, fun hfits made hp => ?_⟩
  have hall : AllFit made := AllFit.earlier hfits hp
  rcases hall.sound with hexit | ⟨ss, hrun, hsound⟩
  · rw [hexit]
    trivial
  · rw [hrun]
    intro i
    obtain ⟨sch, hs, ht⟩ := hsound i
    rw [← ht]
    exact hs.keeps

/-- A column is added to `Schema("")`. -/
theorem ofTypes_empty_addColumn :
    ¬ KeepsColumns [.ofTypes 0 [], .addColumn 0 .Integer] := by
  intro h
  have hall := h _ (List.prefix_refl _)
  have hrun : run [.ofTypes 0 [], .addColumn 0 .Integer] = .error .undefined := rfl
  rw [hrun] at hall
  exact hall

end Eau2.SchemaObj
