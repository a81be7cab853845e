import Mathlib

/-!
# Linked cells on a heap

Cells by address, each with a value and the address of the next one; no address is handed
out twice, and what is deleted is gone.

* `Chain`: the cells from an address on, to the one without a next.  An address begins one
  chain (`Chain.unique`), which meets no cell twice (`Chain.nodup`), so that it is no longer
  than there are cells (`Chain.length_le`).
* `Chain.frame`, `Chain.append`: what a chain is when cells outside of it change, and when
  its last cell gets a next.
-/

namespace Eau2

structure Link (α : Type*) where
  val : α
  next : Option Nat
  deriving DecidableEq, Repr

/-- The cells by address; a deleted one is `none`. -/
abbrev Links (α : Type*) := List (Option (Link α))

namespace Links

variable {α : Type*}

def get (h : Links α) (p : Nat) : Option (Link α) := h[p]?.join

def alloc (c : Link α) (h : Links α) : Nat × Links α := (h.length, h ++ [some c])

def addresses (h : Links α) : List Nat := (List.range h.length).filter fun p => (h.get p).isSome

/-- The cells from `o` on are at these places and have these values. -/
inductive Chain (h : Links α) : Option Nat → List (Nat × α) → Prop
  | nil : Chain h none []
  | cons {p : Nat} {c : Link α} {l : List (Nat × α)} : h.get p = some c → Chain h c.next l →
    Chain h (some p) ((p, c.val) :: l)

/-! ### Cells -/

theorem lt_of_get {h : Links α} {p : Nat} {c : Link α} (hp : h.get p = some c) : p < h.length := by
  by_contra hge
  rw [get, List.getElem?_eq_none (Nat.le_of_not_lt hge)] at hp
  cases hp

@[simp] theorem get_length (h : Links α) : h.get h.length = none := by simp [get]

theorem get_set {h : Links α} {p : Nat} {c : Link α} (hp : h.get p = some c)
    (o : Option (Link α)) : get (h.set p o) p = o := by
  simp [get, lt_of_get hp]

theorem get_set_ne {h : Links α} {p q : Nat} (hne : p ≠ q) (o : Option (Link α)) :
    get (h.set p o) q = h.get q := by
  simp [get, List.getElem?_set_ne hne]

theorem get_alloc (c : Link α) (h : Links α) : (h.alloc c).2.get h.length = some c := by
  simp [get, alloc]

theorem get_alloc_ne (c : Link α) {h : Links α} {p : Nat} (hne : p ≠ h.length) :
    (h.alloc c).2.get p = h.get p := by
  show ((h ++ [some c])[p]?).join = h[p]?.join
  rcases Nat.lt_or_gt_of_ne hne with hlt | hgt
  · rw [List.getElem?_append_left hlt]
  · rw [List.getElem?_eq_none (by simp; omega), List.getElem?_eq_none hgt.le]

/-! ### Chains -/

theorem Chain.get {h : Links α} {o : Option Nat} {l : List (Nat × α)} (hc : Chain h o l)
    {p : Nat} {a : α} (hp : (p, a) ∈ l) : ∃ n, h.get p = some ⟨a, n⟩ := by
  induction hc with
  | nil => cases hp
  | @cons q c l hq _ ih =>
    rcases List.mem_cons.mp hp with heq | hmem
    · cases heq
      exact ⟨c.next, hq⟩
    · exact ih hmem

/-- **An address begins one chain.** -/
theorem Chain.unique {h : Links α} {o : Option Nat} {l l' : List (Nat × α)} (hc : Chain h o l)
    (hc' : Chain h o l') : l = l' := by
  induction hc generalizing l' with
  | nil =>
    cases hc'
    rfl
  | @cons p c l hp _ ih =>
    cases hc' with
    | cons hp' hc' =>
      cases hp.symm.trans hp'
      rw [ih hc']

theorem Chain.of_mem {h : Links α} {o : Option Nat} {l : List (Nat × α)} (hc : Chain h o l)
    {p : Nat} (hp : p ∈ l.map Prod.fst) :
    ∃ l', Chain h (some p) l' ∧ l'.length ≤ l.length := by
  induction hc with
  | nil => cases hp
  | @cons q c l hq hrest ih =>
    rcases List.mem_cons.mp hp with heq | hmem
    · cases heq
      exact ⟨_, Chain.cons hq hrest, le_rfl⟩
    · obtain ⟨l', hl', hle⟩ := ih hmem
      exact ⟨l', hl', hle.trans (Nat.le_succ _)⟩

/-- **A chain that ends meets no cell twice.** -/
theorem Chain.nodup {h : Links α} {o : Option Nat} {l : List (Nat × α)} (hc : Chain h o l) :
    (l.map Prod.fst).Nodup := by
  induction hc with
  | nil => exact List.nodup_nil
  | @cons p c l hp hrest ih =>
    rw [List.map_cons, List.nodup_cons]
    refine ⟨fun hmem => ?_, ih⟩
    -- the cell would begin a chain that is shorter than its own
    obtain ⟨l', hl', hle⟩ := hrest.of_mem hmem
    rw [← (Chain.cons hp hrest).unique hl'] at hle
    exact absurd hle (Nat.not_succ_le_self _)

theorem Chain.mem_addresses {h : Links α} {o : Option Nat} {l : List (Nat × α)}
    (hc : Chain h o l) {p : Nat} (hp : p ∈ l.map Prod.fst) : p ∈ h.addresses := by
  obtain ⟨⟨q, a⟩, hmem, rfl⟩ := List.mem_map.mp hp
  obtain ⟨n, hget⟩ := hc.get hmem
  simp [addresses, hget, lt_of_get hget]

/-- **A chain is no longer than there are cells.** -/
theorem Chain.length_le {h : Links α} {o : Option Nat} {l : List (Nat × α)} (hc : Chain h o l) :
    l.length ≤ h.addresses.length := by
  have hsub := hc.nodup.subperm fun p hp => hc.mem_addresses hp
  simpa using hsub.length_le

theorem length_addresses_le (h : Links α) : h.addresses.length ≤ h.length := by
  have hle := List.length_filter_le (fun p => (h.get p).isSome) (List.range h.length)
  rwa [List.length_range] at hle

/-- **A chain stays where its cells do.** -/
theorem Chain.frame {h h' : Links α} {o : Option Nat} {l : List (Nat × α)} (hc : Chain h o l)
    (hsame : ∀ p ∈ l.map Prod.fst, h'.get p = h.get p) : Chain h' o l := by
  induction hc with
  | nil => exact Chain.nil
  | @cons p c l hp _ ih =>
    rw [List.map_cons] at hsame
    refine Chain.cons ((hsame p List.mem_cons_self).trans hp) (ih fun q hq => ?_)
    exact hsame q (List.mem_cons_of_mem p hq)

/-- **A chain whose last cell gets a next**, which has none itself. -/
theorem Chain.append {h h' : Links α} {o : Option Nat} {l : List (Nat × α)} {p q : Nat} {a b : α}
    (hc : Chain h o (l ++ [(p, a)])) (hsame : ∀ r ∈ l.map Prod.fst, h'.get r = h.get r)
    (hp : h'.get p = some ⟨a, some q⟩) (hq : h'.get q = some ⟨b, none⟩) :
    Chain h' o (l ++ [(p, a)] ++ [(q, b)]) := by
  induction l generalizing o with
  | nil =>
    cases hc with
    | @cons p c _ _ _ =>
      exact @Chain.cons _ h' p ⟨c.val, some q⟩ _ hp (@Chain.cons _ h' q ⟨b, none⟩ _ hq Chain.nil)
  | cons r l ih =>
    rw [List.map_cons] at hsame
    cases hc with
    | @cons r c _ hr hrest =>
      refine Chain.cons ((hsame r List.mem_cons_self).trans hr) (ih hrest fun s hs => ?_)
      exact hsame s (List.mem_cons_of_mem r hs)

theorem Chain.get_last {h : Links α} {o : Option Nat} {l : List (Nat × α)} {p : Nat} {a : α}
    (hc : Chain h o (l ++ [(p, a)])) : h.get p = some ⟨a, none⟩ := by
  induction l generalizing o with
  | nil =>
    cases hc with
    | @cons p c _ hp hrest =>
      rw [hp]
      obtain ⟨val, next⟩ := c
      cases next with
      | none => rfl
      | some n => cases hrest
  | cons r l ih =>
    cases hc with
    | cons _ hrest => exact ih hrest

end Links

end Eau2
