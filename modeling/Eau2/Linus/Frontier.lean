import Mathlib

/-!
# Tagging through a bipartite relation

Two kinds of things, `α` and `β`, a relation between them, and a set of each that is
known.  Starting from one `l : β`, each stage tags the `α`s that are related to a `β` tagged
in the stage before, and then the `β`s that are related to one of these; what is tagged
already is left out, and something unknown counts as tagged when it is gone through.

* `iUnion_tagFst`: what the parts of a relation tag is what the relation tags.
* `fst_stage`, `snd_stage`: over a relation between known things, propagating only what
  was tagged last reaches what recomputing from everything does.
* `mem_reach_iff`: and that is what lies within a distance in the graph of the relation.
* `stage_known`, `harmless_of_stage_one`: leaving out the pairs with something unknown
  changes nothing exactly when these pairs add nothing in the first stage.
-/

namespace Eau2

/-- What has been tagged, and the `β`s that the last stage tagged. -/
@[ext] structure Stage (α β : Type) where
  fst : Set α
  snd : Set β
  delta : Set β

namespace Stage

variable {α β : Type} (R : α → β → Prop) (A : Set α) (B : Set β) (l : β)

/-- The `α`s that a stage tags. -/
def tagFst (fst : Set α) (delta : Set β) : Set α :=
  {a | a ∈ A ∧ a ∉ fst ∧ ∃ b, R a b ∧ (b ∈ delta ∨ b ∉ B)}

def tagSnd (snd : Set β) (tagged : Set α) : Set β :=
  {b | b ∈ B ∧ b ∉ snd ∧ ∃ a, R a b ∧ (a ∈ tagged ∨ a ∉ A)}

def next (s : Stage α β) : Stage α β where
  fst := s.fst ∪ tagFst R A B s.fst s.delta
  snd := s.snd ∪ tagSnd R A B s.snd (tagFst R A B s.fst s.delta)
  delta := tagSnd R A B s.snd (tagFst R A B s.fst s.delta)

/-- The sets after `n` stages. -/
def stage : ℕ → Stage α β
  | 0 => ⟨∅, ∅, {b | b = l ∧ b ∈ B}⟩
  | n + 1 => (stage n).next R A B

section Parts

variable {ι : Type} (S : ι → α → β → Prop)

/-- **What the parts of a relation tag is what the relation tags.** -/
theorem iUnion_tagFst (fst : Set α) (delta : Set β) :
    ⋃ i, tagFst (S i) A B fst delta = tagFst (fun a b => ∃ i, S i a b) A B fst delta := by
  ext a
  rw [Set.mem_iUnion]
  constructor
  · rintro ⟨i, hA, hfst, b, hab, hb⟩
    exact ⟨hA, hfst, b, ⟨i, hab⟩, hb⟩
  · rintro ⟨hA, hfst, b, ⟨i, hab⟩, hb⟩
    exact ⟨i, hA, hfst, b, hab, hb⟩

theorem iUnion_tagSnd (snd : Set β) (tagged : Set α) :
    ⋃ i, tagSnd (S i) A B snd tagged = tagSnd (fun a b => ∃ i, S i a b) A B snd tagged := by
  ext b
  rw [Set.mem_iUnion]
  constructor
  · rintro ⟨i, hB, hsnd, a, hab, ha⟩
    exact ⟨hB, hsnd, a, ⟨i, hab⟩, ha⟩
  · rintro ⟨hB, hsnd, a, ⟨i, hab⟩, ha⟩
    exact ⟨i, hB, hsnd, a, hab, ha⟩

end Parts

variable {R A B l}

/-! ### Distances -/

section Distance

variable (R l)

/-- The `β`s within `n` degrees of `l`, recomputed from all within one degree less. -/
def reach : ℕ → Set β
  | 0 => {l}
  | n + 1 => reach n ∪ {b | ∃ a, R a b ∧ ∃ b' ∈ reach n, R a b'}

def graph : SimpleGraph (α ⊕ β) where
  Adj
    | .inl a, .inr b => R a b
    | .inr b, .inl a => R a b
    | _, _ => False
  symm := ⟨by
    rintro (a | b) (a' | b') h
    · exact h
    · exact h
    · exact h
    · exact h⟩
  loopless := ⟨by
    rintro (a | b) h
    · exact h
    · exact h⟩

variable {R l}

theorem reach_mono {m n : ℕ} (h : m ≤ n) : reach R l m ⊆ reach R l n := by
  induction h with
  | refl => exact subset_rfl
  | step h ih => exact ih.trans Set.subset_union_left

theorem edist_le_two {a : α} {b b' : β} (h : R a b) (h' : R a b') :
    (graph R).edist (.inr b) (.inr b') ≤ 2 := by
  have h1 : (graph R).Adj (.inr b) (.inl a) := h
  have h2 : (graph R).Adj (.inl a) (.inr b') := h'
  exact SimpleGraph.edist_le (.cons h1 (.cons h2 .nil))

/-- And two of them are never closer. -/
theorem eq_of_edist_le_one {b b' : β} (h : (graph R).edist (.inr b) (.inr b') ≤ 1) : b = b' := by
  have hne : (graph R).edist (.inr b) (.inr b') ≠ ⊤ := by
    intro htop
    rw [htop] at h
    exact absurd h (by decide)
  obtain ⟨w, hw⟩ := SimpleGraph.exists_walk_of_edist_ne_top hne
  have hlen : w.length ≤ 1 := by
    rw [← hw] at h
    exact_mod_cast h
  cases w with
  | nil => rfl
  | @cons _ x _ hadj w =>
    cases w with
    | nil => exact hadj.elim
    | cons _ w =>
      rw [SimpleGraph.Walk.length_cons, SimpleGraph.Walk.length_cons] at hlen
      omega

/-- A walk of `2 * n` steps goes through `n` more degrees. -/
theorem mem_reach_of_walk {k n : ℕ} {b b' : β} (hb : b ∈ reach R l k)
    (w : (graph R).Walk (.inr b) (.inr b')) (hw : w.length ≤ 2 * n) :
    b' ∈ reach R l (k + n) := by
  induction n generalizing k b with
  | zero =>
    cases w with
    | nil => exact hb
    | cons h w =>
      rw [SimpleGraph.Walk.length_cons] at hw
      omega
  | succ n ih =>
    cases w with
    | nil => exact reach_mono (Nat.le_add_right k (n + 1)) hb
    | @cons _ x _ h w =>
      cases x with
      | inr _ => exact h.elim
      | inl a =>
        cases w with
        | @cons _ y _ h' w =>
          cases y with
          | inl _ => exact h'.elim
          | inr b₁ =>
            have hb₁ : b₁ ∈ reach R l (k + 1) := Or.inr ⟨a, h', b, hb, h⟩
            rw [SimpleGraph.Walk.length_cons, SimpleGraph.Walk.length_cons] at hw
            have := ih hb₁ w (by omega)
            rwa [show k + (n + 1) = k + 1 + n by omega]

/-- **`n` degrees are a distance of `2 * n` in the graph.** -/
theorem mem_reach_iff {n : ℕ} {b : β} :
    b ∈ reach R l n ↔ (graph R).edist (.inr l) (.inr b) ≤ 2 * n := by
  constructor
  · intro h
    induction n generalizing b with
    | zero =>
      have hb : b = l := h
      rw [hb, SimpleGraph.edist_self]
      exact bot_le
    | succ n ih =>
      rcases h with h | ⟨a, hab, b', hb', hab'⟩
      · refine (ih h).trans ?_
        exact_mod_cast Nat.mul_le_mul_left 2 (Nat.le_succ n)
      · calc (graph R).edist (.inr l) (.inr b)
            ≤ (graph R).edist (.inr l) (.inr b') + (graph R).edist (.inr b') (.inr b) :=
              SimpleGraph.edist_triangle
          _ ≤ 2 * n + 2 := add_le_add (ih hb') (edist_le_two hab' hab)
          _ = 2 * ↑(n + 1) := by push_cast; ring
  · intro h
    have hne : (graph R).edist (.inr l) (.inr b) ≠ ⊤ := by
      intro htop
      rw [htop, top_le_iff] at h
      exact absurd h (by exact_mod_cast ENat.natCast_ne_top (2 * n))
    obtain ⟨w, hw⟩ := SimpleGraph.exists_walk_of_edist_ne_top hne
    have hlen : w.length ≤ 2 * n := by
      rw [← hw] at h
      exact_mod_cast h
    have := mem_reach_of_walk (k := 0) (show l ∈ reach R l 0 from rfl) w hlen
    rwa [Nat.zero_add] at this

/-- What the stages keep, over a relation between known things. -/
structure Reached (R : α → β → Prop) (l : β) (n : ℕ) (s : Stage α β) : Prop where
  snd : s.snd = {b | ∃ a ∈ s.fst, R a b}
  reach_eq : reach R l n = {l} ∪ s.snd
  fst_subset : ∀ a ∈ s.fst, ∃ b ∈ reach R l n, R a b
  delta_subset : s.delta ⊆ reach R l n
  /-- What is reached and not passed on any more has been passed on. -/
  passed : ∀ a, ∀ b ∈ reach R l n, R a b → a ∈ s.fst ∨ b ∈ s.delta

theorem Reached.fst_next {s : Stage α β} {n : ℕ} (h : Reached R l n s)
    (hA : ∀ a b, R a b → a ∈ A) (hB : ∀ a b, R a b → b ∈ B) :
    (s.next R A B).fst = {a | ∃ b ∈ reach R l n, R a b} := by
  ext a
  constructor
  · rintro (ha | ⟨-, -, b, hab, hb⟩)
    · exact h.fst_subset a ha
    · exact ⟨b, h.delta_subset (hb.resolve_right (not_not.mpr (hB a b hab))), hab⟩
  · rintro ⟨b, hb, hab⟩
    by_cases hfst : a ∈ s.fst
    · exact Or.inl hfst
    · exact Or.inr ⟨hA a b hab, hfst, b, hab, Or.inl ((h.passed a b hb hab).resolve_left hfst)⟩

theorem Reached.snd_next {s : Stage α β} {n : ℕ} (h : Reached R l n s)
    (hA : ∀ a b, R a b → a ∈ A) (hB : ∀ a b, R a b → b ∈ B) :
    (s.next R A B).snd = {b | ∃ a ∈ (s.next R A B).fst, R a b} := by
  ext b
  constructor
  · rintro (hb | ⟨-, -, a, hab, ha⟩)
    · rw [h.snd] at hb
      obtain ⟨a, ha, hab⟩ := hb
      exact ⟨a, Or.inl ha, hab⟩
    · exact ⟨a, Or.inr (ha.resolve_right (not_not.mpr (hA a b hab))), hab⟩
  · rintro ⟨a, ha, hab⟩
    by_cases hsnd : b ∈ s.snd
    · exact Or.inl hsnd
    · rcases ha with ha | ha
      · exact absurd (by rw [h.snd]; exact ⟨a, ha, hab⟩) hsnd
      · exact Or.inr ⟨hB a b hab, hsnd, a, hab, Or.inl ha⟩

theorem Reached.next {s : Stage α β} {n : ℕ} (h : Reached R l n s)
    (hA : ∀ a b, R a b → a ∈ A) (hB : ∀ a b, R a b → b ∈ B) :
    Reached R l (n + 1) (s.next R A B) := by
  have hfst := h.fst_next hA hB
  have hsnd := h.snd_next hA hB
  have hsub : s.snd ⊆ (s.next R A B).snd := Set.subset_union_left
  have hreach : Stage.reach R l (n + 1) = {l} ∪ (s.next R A B).snd := by
    have hnew : {b | ∃ a, R a b ∧ ∃ b' ∈ Stage.reach R l n, R a b'} = (s.next R A B).snd := by
      rw [hsnd, hfst]
      ext b
      exact ⟨fun ⟨a, hab, b', hb', hab'⟩ => ⟨a, ⟨b', hb', hab'⟩, hab⟩,
        fun ⟨a, ⟨b', hb', hab'⟩, hab⟩ => ⟨a, hab, b', hb', hab'⟩⟩
    rw [Stage.reach, hnew, h.reach_eq, Set.union_assoc, Set.union_eq_self_of_subset_left hsub]
  refine ⟨hsnd, hreach, ?_, ?_, ?_⟩
  · intro a ha
    rw [hfst] at ha
    obtain ⟨b, hb, hab⟩ := ha
    exact ⟨b, reach_mono (Nat.le_succ n) hb, hab⟩
  · rw [hreach]
    exact fun b hb => Or.inr (Or.inr hb)
  · intro a b hb hab
    rw [hreach] at hb
    by_cases hdelta : b ∈ (s.next R A B).delta
    · exact Or.inr hdelta
    · left
      rw [hfst]
      refine ⟨b, ?_, hab⟩
      rw [h.reach_eq]
      rcases hb with hb | hb | hb
      · exact Or.inl hb
      · exact Or.inr hb
      · exact absurd hb hdelta

theorem reached_stage (hA : ∀ a b, R a b → a ∈ A) (hB : ∀ a b, R a b → b ∈ B) (hl : l ∈ B)
    (n : ℕ) : Reached R l n (stage R A B l n) := by
  induction n with
  | zero =>
    have hdelta : (stage R A B l 0).delta = {l} := by
      ext b
      exact ⟨fun hb => hb.1, fun hb => ⟨hb, by rwa [show b = l from hb]⟩⟩
    refine ⟨?_, (Set.union_empty _).symm, fun a ha => ha.elim, ?_, ?_⟩
    · ext b
      exact ⟨fun h => h.elim, fun ⟨a, ha, _⟩ => ha.elim⟩
    · rw [hdelta]
      rfl
    · intro a b hb hab
      rw [hdelta]
      exact Or.inr hb
  | succ n ih => exact ih.next hA hB

/-- **Propagating only what was tagged last reaches what recomputing from everything
does**, over a relation between known things. -/
theorem fst_stage (hA : ∀ a b, R a b → a ∈ A) (hB : ∀ a b, R a b → b ∈ B) (hl : l ∈ B) (n : ℕ) :
    (stage R A B l (n + 1)).fst = {a | ∃ b ∈ reach R l n, R a b} :=
  (reached_stage hA hB hl n).fst_next hA hB

theorem snd_stage (hA : ∀ a b, R a b → a ∈ A) (hB : ∀ a b, R a b → b ∈ B) (hl : l ∈ B) (n : ℕ) :
    (stage R A B l n).snd = {b | ∃ a ∈ (stage R A B l n).fst, R a b} :=
  (reached_stage hA hB hl n).snd

end Distance

/-! ### Pairs with something unknown -/

section Known

variable (R A B l)

def Known (a : α) (b : β) : Prop := R a b ∧ a ∈ A ∧ b ∈ B

/-- The pairs with something unknown add nothing in the first stage. -/
def Harmless : Prop :=
  (∀ a ∈ A, ∀ b, b ∉ B → R a b → l ∈ B ∧ R a l) ∧
    ∀ b ∈ B, ∀ a, a ∉ A → R a b → ∃ a' ∈ A, R a' b ∧ l ∈ B ∧ R a' l

variable {R A B l}

theorem mem_fst_known {a : α} : a ∈ (stage (Known R A B) A B l 1).fst ↔ a ∈ A ∧ l ∈ B ∧ R a l := by
  constructor
  · rintro (ha | ⟨hA, -, b, ⟨hab, -, hB⟩, hb | hb⟩)
    · exact ha.elim
    · obtain ⟨rfl, -⟩ := hb
      exact ⟨hA, hB, hab⟩
    · exact absurd hB hb
  · rintro ⟨hA, hB, hal⟩
    exact Or.inr ⟨hA, fun h => h.elim, l, ⟨hal, hA, hB⟩, Or.inl ⟨rfl, hB⟩⟩

theorem mem_snd_known {b : β} : b ∈ (stage (Known R A B) A B l 1).snd ↔
    b ∈ B ∧ ∃ a ∈ A, R a b ∧ l ∈ B ∧ R a l := by
  constructor
  · rintro (hb | ⟨hB, -, a, ⟨hab, hA, -⟩, ha | ha⟩)
    · exact hb.elim
    · obtain ⟨-, hl, hal⟩ := mem_fst_known.mp (Or.inr ha)
      exact ⟨hB, a, hA, hab, hl, hal⟩
    · exact absurd hA ha
  · rintro ⟨hB, a, hA, hab, hl, hal⟩
    refine Or.inr ⟨hB, fun h => h.elim, a, ⟨hab, hA, hB⟩, Or.inl ?_⟩
    exact ⟨hA, fun h => h.elim, l, ⟨hal, hA, hl⟩, Or.inl ⟨rfl, hl⟩⟩

/-- A stage does the same when everything unknown leads to what is tagged already. -/
theorem next_known {s : Stage α β} (hfst : ∀ a ∈ A, ∀ b, b ∉ B → R a b → a ∈ s.fst)
    (hsnd : ∀ b ∈ B, ∀ a, a ∉ A → R a b → b ∈ s.snd) :
    s.next R A B = s.next (Known R A B) A B := by
  have hF : tagFst R A B s.fst s.delta = tagFst (Known R A B) A B s.fst s.delta := by
    ext a
    constructor
    · rintro ⟨hA, hn, b, hab, hb⟩
      have hB : b ∈ B := by
        by_contra hB
        exact hn (hfst a hA b hB hab)
      exact ⟨hA, hn, b, ⟨hab, hA, hB⟩, hb⟩
    · rintro ⟨hA, hn, b, ⟨hab, -, -⟩, hb⟩
      exact ⟨hA, hn, b, hab, hb⟩
  have hS : ∀ T : Set α, tagSnd R A B s.snd T = tagSnd (Known R A B) A B s.snd T := by
    intro T
    ext b
    constructor
    · rintro ⟨hB, hn, a, hab, ha⟩
      have hA : a ∈ A := by
        by_contra hA
        exact hn (hsnd b hB a hA hab)
      exact ⟨hB, hn, a, ⟨hab, hA, hB⟩, ha⟩
    · rintro ⟨hB, hn, a, ⟨hab, -, -⟩, ha⟩
      exact ⟨hB, hn, a, hab, ha⟩
  rw [next, next, hF, hS]

theorem stage_one_known (h : Harmless R A B l) :
    stage R A B l 1 = stage (Known R A B) A B l 1 := by
  have hF : tagFst R A B ∅ {b | b = l ∧ b ∈ B} =
      tagFst (Known R A B) A B ∅ {b | b = l ∧ b ∈ B} := by
    ext a
    constructor
    · rintro ⟨hA, hn, b, hab, ⟨rfl, hB⟩ | hB⟩
      · exact ⟨hA, hn, b, ⟨hab, hA, hB⟩, Or.inl ⟨rfl, hB⟩⟩
      · obtain ⟨hl, hal⟩ := h.1 a hA b hB hab
        exact ⟨hA, hn, l, ⟨hal, hA, hl⟩, Or.inl ⟨rfl, hl⟩⟩
    · rintro ⟨hA, hn, b, ⟨hab, -, -⟩, hb⟩
      exact ⟨hA, hn, b, hab, hb⟩
  have hS : tagSnd R A B ∅ (tagFst (Known R A B) A B ∅ {b | b = l ∧ b ∈ B}) =
      tagSnd (Known R A B) A B ∅ (tagFst (Known R A B) A B ∅ {b | b = l ∧ b ∈ B}) := by
    ext b
    constructor
    · rintro ⟨hB, hn, a, hab, ha | hA⟩
      · exact ⟨hB, hn, a, ⟨hab, ha.1, hB⟩, Or.inl ha⟩
      · obtain ⟨a', hA', hab', hl, hal⟩ := h.2 b hB a hA hab
        exact ⟨hB, hn, a', ⟨hab', hA', hB⟩,
          Or.inl ⟨hA', hn, l, ⟨hal, hA', hl⟩, Or.inl ⟨rfl, hl⟩⟩⟩
    · rintro ⟨hB, hn, a, ⟨hab, -, -⟩, ha⟩
      exact ⟨hB, hn, a, hab, ha⟩
  show next R A B ⟨∅, ∅, _⟩ = next (Known R A B) A B ⟨∅, ∅, _⟩
  rw [next, next]
  dsimp only
  rw [hF, hS]

theorem stage_mono (n : ℕ) : (stage R A B l n).fst ⊆ (stage R A B l (n + 1)).fst ∧
    (stage R A B l n).snd ⊆ (stage R A B l (n + 1)).snd :=
  ⟨Set.subset_union_left, Set.subset_union_left⟩

/-- **Leaving out the pairs with something unknown changes nothing when they add nothing in
the first stage**: not then, and not later. -/
theorem stage_known (h : Harmless R A B l) (n : ℕ) :
    (stage R A B l n).fst = (stage (Known R A B) A B l n).fst ∧
      (stage R A B l n).snd = (stage (Known R A B) A B l n).snd := by
  have key : ∀ n, stage R A B l (n + 1) = stage (Known R A B) A B l (n + 1) ∧
      (∀ a ∈ A, ∀ b, b ∉ B → R a b → a ∈ (stage R A B l (n + 1)).fst) ∧
      ∀ b ∈ B, ∀ a, a ∉ A → R a b → b ∈ (stage R A B l (n + 1)).snd := by
    intro n
    induction n with
    | zero =>
      refine ⟨stage_one_known h, fun a hA b hB hab => ?_, fun b hB a hA hab => ?_⟩
      · exact Or.inr ⟨hA, fun h => h.elim, b, hab, Or.inr hB⟩
      · exact Or.inr ⟨hB, fun h => h.elim, a, hab, Or.inr hA⟩
    | succ n ih =>
      obtain ⟨heq, hfst, hsnd⟩ := ih
      refine ⟨?_, fun a hA b hB hab => (stage_mono (n + 1)).1 (hfst a hA b hB hab),
        fun b hB a hA hab => (stage_mono (n + 1)).2 (hsnd b hB a hA hab)⟩
      rw [stage, next_known hfst hsnd, heq]
      rfl
  cases n with
  | zero => exact ⟨rfl, rfl⟩
  | succ n =>
    rw [(key n).1]
    exact ⟨rfl, rfl⟩

/-- **And only then**: the first stage tells. -/
theorem harmless_of_stage_one
    (hfst : (stage R A B l 1).fst = (stage (Known R A B) A B l 1).fst)
    (hsnd : (stage R A B l 1).snd = (stage (Known R A B) A B l 1).snd) : Harmless R A B l := by
  refine ⟨fun a hA b hB hab => ?_, fun b hB a hA hab => ?_⟩
  · have ha : a ∈ (stage R A B l 1).fst := Or.inr ⟨hA, fun h => h.elim, b, hab, Or.inr hB⟩
    rw [hfst] at ha
    exact (mem_fst_known.mp ha).2
  · have hb : b ∈ (stage R A B l 1).snd := Or.inr ⟨hB, fun h => h.elim, a, hab, Or.inr hA⟩
    rw [hsnd] at hb
    exact (mem_snd_known.mp hb).2

end Known

end Stage

end Eau2
