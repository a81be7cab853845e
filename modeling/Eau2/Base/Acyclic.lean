import Mathlib.Logic.Relation

/-!
# Relations without a ring

What waits for what, and whether somebody waits for himself in the end.

* `Acyclic.insert`: a new edge closes a ring only where a path already leads back.
* `Acyclic.of_map`: a ring in one relation becomes a ring in another, when every step of
  the ring is a step there, or stays where it is and is followed by one that is.
-/

namespace Eau2

open Relation

variable {α β : Type*} {r s : α → α → Prop}

def Acyclic (r : α → α → Prop) : Prop := ∀ a, ¬ TransGen r a a

theorem acyclic_of_empty (h : ∀ a b, ¬ r a b) : Acyclic r := by
  intro a ha
  obtain ⟨b, hab, -⟩ := TransGen.head'_iff.mp ha
  exact h a b hab

theorem Acyclic.mono (h : Acyclic r) (hle : ∀ a b, s a b → r a b) : Acyclic s :=
  fun a ha => h a (TransGen.mono hle a a ha)

/-- A path with a new edge at hand is an old one, or leads up to the new edge and on from it. -/
theorem path_insert {x y : α} (hs : ∀ a b, s a b → r a b ∨ (a = x ∧ b = y)) {a b : α}
    (h : ReflTransGen s a b) : ReflTransGen r a b ∨ (ReflTransGen r a x ∧ ReflTransGen r y b) := by
  induction h with
  | refl => exact Or.inl .refl
  | tail _ hbc ih =>
    rcases hs _ _ hbc with hr | ⟨rfl, rfl⟩
    · rcases ih with h | ⟨hx, hy⟩
      · exact Or.inl (h.tail hr)
      · exact Or.inr ⟨hx, hy.tail hr⟩
    · rcases ih with h | ⟨hx, -⟩
      · exact Or.inr ⟨h, .refl⟩
      · exact Or.inr ⟨hx, .refl⟩

/-- **A new edge closes a ring only where a path already leads back.** -/
theorem Acyclic.insert (h : Acyclic r) {x y : α} (hback : ¬ ReflTransGen r y x)
    (hs : ∀ a b, s a b → r a b ∨ (a = x ∧ b = y)) : Acyclic s := by
  intro a ha
  obtain ⟨b, hab, hba⟩ := TransGen.head'_iff.mp ha
  rcases hs a b hab with hr | ⟨rfl, rfl⟩
  · rcases path_insert hs hba with hp | ⟨hx, hy⟩
    · exact h a (.head' hr hp)
    · exact hback ((hy.tail hr).trans hx)
  · rcases path_insert hs hba with hp | ⟨-, hy⟩
    · exact hback hp
    · exact hback hy

theorem ring_next {a b : α} (hab : r a b) (hba : ReflTransGen r b a) : TransGen r b b :=
  .tail' hba hab

theorem path_map {s : β → β → Prop} {f : α → β}
    (h : ∀ a b, r a b → TransGen r b b → s (f a) (f b) ∨ f a = f b) {a c : α}
    (hac : ReflTransGen r a c) (hca : ReflTransGen r c a) : ReflTransGen s (f a) (f c) := by
  induction hac using ReflTransGen.head_induction_on with
  | refl => exact .refl
  | @head a b hab hbc ih =>
    have hb : TransGen r b b := ring_next hab (hbc.trans hca)
    have hrest := ih (hca.tail hab)
    rcases h a b hab hb with hs | he
    · exact .head hs hrest
    · rw [he]
      exact hrest

/-- **Rings through a map.** The steps of a ring that stay where they are do not follow each
other, so something of it is left. -/
theorem Acyclic.of_map {s : β → β → Prop} (hs : Acyclic s) (f : α → β)
    (h : ∀ a b, r a b → TransGen r b b → s (f a) (f b) ∨
      (f a = f b ∧ ∀ c, r b c → TransGen r c c → s (f b) (f c))) : Acyclic r := by
  have hweak : ∀ a b, r a b → TransGen r b b → s (f a) (f b) ∨ f a = f b :=
    fun a b hab hb => (h a b hab hb).imp_right And.left
  intro a ha
  obtain ⟨b, hab, hba⟩ := TransGen.head'_iff.mp ha
  have hb := ring_next hab hba
  rcases h a b hab hb with hstep | ⟨-, hnext⟩
  · exact hs (f a) (.head' hstep (path_map hweak hba (.single hab)))
  · obtain ⟨c, hbc, hcb⟩ := TransGen.head'_iff.mp hb
    exact hs (f b) (.head' (hnext c hbc (ring_next hbc hcb)) (path_map hweak hcb (.single hbc)))

end Eau2
