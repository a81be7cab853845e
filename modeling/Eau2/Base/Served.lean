import Mathlib

/-!
# Objects that answer calls

An object is a function `answer : σ → γ → Option (ρ × σ)`: the reply to a call and
the state it leaves, or `none` where an assertion of the call fails.

* `serve`: the replies to a sequence of calls (`serve_snoc`: and one more).
* `serve_refines`: two objects that stay related, and give the same reply to every
  call, give the same replies to every sequence of calls.
* `ReadsBack`: the calls are reads, and return the elements of a list.
* `serveE`, `serveE_refines`: the same where a call may end in one of several ways, for
  objects that agree as long as the second one's states are all of some kind.
-/

namespace Eau2

variable {σ τ γ ρ : Type*}

/-- The replies to a sequence of calls, and the state behind the last. -/
def serve (answer : σ → γ → Option (ρ × σ)) (s : σ) : List γ → Option (List ρ × σ)
  | [] => some ([], s)
  | c :: cs => do
    let (r, s) ← answer s c
    let (rs, s) ← serve answer s cs
    pure (r :: rs, s)

theorem serve_snoc {answer : σ → γ → Option (ρ × σ)} {s s' s'' : σ} {cs : List γ} {rs : List ρ}
    {c : γ} {r : ρ} (h : serve answer s cs = some (rs, s')) (hc : answer s' c = some (r, s'')) :
    serve answer s (cs ++ [c]) = some (rs ++ [r], s'') := by
  induction cs generalizing s rs with
  | nil =>
    cases h
    rw [List.nil_append, serve, hc]
    rfl
  | cons c₀ cs ih =>
    unfold serve at h
    obtain ⟨⟨r₀, s₁⟩, hr, h⟩ := Option.bind_eq_some_iff.mp h
    obtain ⟨⟨rs', s₂⟩, hrs, h⟩ := Option.bind_eq_some_iff.mp h
    cases h
    rw [List.cons_append, serve, hr]
    show (serve answer s₁ (cs ++ [c])).bind _ = _
    rw [ih hrs]
    rfl

/-- Equal replies, and related states behind them. -/
def Agree (R : σ → τ → Prop) (p : ρ × σ) (q : ρ × τ) : Prop := p.1 = q.1 ∧ R p.2 q.2

theorem rel_bind {α α' β β' : Type*} {R : α → α' → Prop} {S : β → β' → Prop} {x : Option α}
    {y : Option α'} {f : α → Option β} {g : α' → Option β'} (h : Option.Rel R x y)
    (hfg : ∀ a b, R a b → Option.Rel S (f a) (g b)) : Option.Rel S (x.bind f) (y.bind g) := by
  cases h with
  | none => exact Option.Rel.none
  | some hab => exact hfg _ _ hab

/-- **Objects that agree on each call agree on every sequence of calls.** -/
theorem serve_refines {answer : σ → γ → Option (ρ × σ)} {spec : τ → γ → Option (ρ × τ)}
    {R : σ → τ → Prop}
    (hcall : ∀ {s t}, R s t → ∀ c, Option.Rel (Agree R) (answer s c) (spec t c))
    {s : σ} {t : τ} (h : R s t) (cs : List γ) :
    Option.Rel (Agree R) (serve answer s cs) (serve spec t cs) := by
  induction cs generalizing s t with
  | nil => exact Option.Rel.some ⟨rfl, h⟩
  | cons c cs ih =>
    unfold serve
    apply rel_bind (hcall h c)
    intro p q hpq
    apply rel_bind (ih hpq.2)
    intro ps qs hs
    apply Option.Rel.some
    exact ⟨congrArg₂ List.cons hpq.1 hs.1, hs.2⟩

/-! ### Reading a list back -/

/-- Every sequence of reads at indices of `vals` returns the elements there. -/
def ReadsBack {α : Type*} (read : σ → ℕ → Option (α × σ)) (vals : List α) (s : σ) : Prop :=
  ∀ is : List ℕ, (∀ i ∈ is, i < vals.length) → ∃ as s', serve read s is = some (as, s') ∧
    as.map some = is.map fun i => vals[i]?

theorem ReadsBack.read {α : Type*} {read : σ → ℕ → Option (α × σ)} {vals : List α} {s : σ}
    (h : ReadsBack read vals s) {i : ℕ} (hi : i < vals.length) :
    ∃ s', read s i = some (vals[i], s') := by
  obtain ⟨as, s', hserve, has⟩ := h [i] (by simpa using hi)
  unfold serve at hserve
  obtain ⟨⟨a, s₁⟩, hread, hserve⟩ := Option.bind_eq_some_iff.mp hserve
  obtain ⟨⟨as', s₂⟩, hnil, hserve⟩ := Option.bind_eq_some_iff.mp hserve
  cases hserve
  have ha : some a = vals[i]? := (List.cons.inj has).1
  rw [List.getElem?_eq_getElem hi] at ha
  rw [← Option.some.inj ha]
  exact ⟨s₁, hread⟩

/-- **A read that returns the right element and keeps an invariant reads the list back.** -/
theorem readsBack_of_invariant {α : Type*} {read : σ → ℕ → Option (α × σ)} {vals : List α}
    {I : σ → Prop}
    (hread : ∀ s, I s → ∀ i (hi : i < vals.length), ∃ s', read s i = some (vals[i], s') ∧ I s')
    {s : σ} (h : I s) : ReadsBack read vals s := by
  intro is his
  induction is generalizing s with
  | nil => exact ⟨[], s, rfl, rfl⟩
  | cons i is ih =>
    have hi := his i List.mem_cons_self
    obtain ⟨s₁, hs₁, h₁⟩ := hread s h i hi
    obtain ⟨as, s', hserve, has⟩ := ih h₁ fun j hj => his j (List.mem_cons_of_mem i hj)
    refine ⟨vals[i] :: as, s', ?_, ?_⟩
    · unfold serve
      rw [hs₁]
      show (serve read s₁ is).bind _ = _
      rw [hserve]
      rfl
    · rw [List.map_cons, List.map_cons, has, List.getElem?_eq_getElem hi]

/-! ### Calls that may end the program -/

section Halting

variable {ε : Type*} {α β : Type*}

/-- Both end in the same way, or return related results. -/
inductive ExceptRel (R : α → β → Prop) : Except ε α → Except ε β → Prop
  | ok {a : α} {b : β} : R a b → ExceptRel R (.ok a) (.ok b)
  | error (e : ε) : ExceptRel R (.error e) (.error e)

theorem ExceptRel.mono {R S : α → β → Prop} (hRS : ∀ a b, R a b → S a b) {x : Except ε α}
    {y : Except ε β} (h : ExceptRel R x y) : ExceptRel S x y := by
  cases h with
  | ok hab => exact ExceptRel.ok (hRS _ _ hab)
  | error e => exact ExceptRel.error e

theorem ExceptRel.bind {α' β' : Type*} {R : α → β → Prop} {S : α' → β' → Prop} {x : Except ε α}
    {y : Except ε β} {f : α → Except ε α'} {g : β → Except ε β'} (h : ExceptRel R x y)
    (hfg : ∀ a b, R a b → ExceptRel S (f a) (g b)) : ExceptRel S (x.bind f) (y.bind g) := by
  cases h with
  | ok hab => exact hfg _ _ hab
  | error e => exact ExceptRel.error e

/-- The replies to a sequence of calls, or how it ends. -/
def serveE (answer : σ → γ → Except ε (ρ × σ)) (s : σ) : List γ → Except ε (List ρ × σ)
  | [] => .ok ([], s)
  | c :: cs => do
    let (r, s) ← answer s c
    let (rs, s) ← serveE answer s cs
    .ok (r :: rs, s)

theorem serveE_append_singleton (answer : σ → γ → Except ε (ρ × σ)) (s : σ) (cs : List γ) (c : γ) :
    serveE answer s (cs ++ [c]) = (serveE answer s cs).bind fun p =>
      (answer p.2 c).bind fun q => .ok (p.1 ++ [q.1], q.2) := by
  induction cs generalizing s with
  | nil =>
    rw [List.nil_append, serveE]
    show (answer s c).bind _ = (answer s c).bind _
    cases answer s c <;> rfl
  | cons c₀ cs ih =>
    rw [List.cons_append, serveE, serveE]
    cases answer s c₀ with
    | error e => rfl
    | ok p =>
      show (serveE answer p.2 (cs ++ [c])).bind _ = ((serveE answer p.2 cs).bind _).bind _
      rw [ih]
      cases serveE answer p.2 cs with
      | error e => rfl
      | ok q =>
        show ((answer q.2 c).bind _).bind _ = (answer q.2 c).bind _
        cases answer q.2 c <;> rfl

/-- An end to which no call comes is no end of a sequence of calls. -/
theorem serveE_ne_error {answer : σ → γ → Except ε (ρ × σ)} {e : ε}
    (hne : ∀ s c, answer s c ≠ .error e) (s : σ) (cs : List γ) : serveE answer s cs ≠ .error e := by
  induction cs generalizing s with
  | nil => intro h; cases h
  | cons c cs ih =>
    intro h
    rw [serveE] at h
    cases hc : answer s c with
    | error e' =>
      rw [hc] at h
      cases h
      exact hne s c hc
    | ok p =>
      have hrest : (serveE answer p.2 cs).bind (fun q => Except.ok (p.1 :: q.1, q.2)) =
          .error e := by
        rw [hc] at h
        exact h
      cases hcs : serveE answer p.2 cs with
      | error e' =>
        rw [hcs] at hrest
        cases hrest
        exact ih p.2 hcs
      | ok q =>
        rw [hcs] at hrest
        cases hrest

theorem serveE_le {answer : σ → γ → Except ε (ρ × σ)} {size : σ → ℕ}
    (hle : ∀ {s c r s'}, answer s c = .ok (r, s') → size s' ≤ size s + 1) {s s' : σ} {cs : List γ}
    {rs : List ρ} (h : serveE answer s cs = .ok (rs, s')) : size s' ≤ size s + cs.length := by
  induction cs generalizing s rs with
  | nil =>
    cases h
    exact le_rfl
  | cons c cs ih =>
    rw [serveE] at h
    cases hc : answer s c with
    | error e =>
      rw [hc] at h
      cases h
    | ok p =>
      have hrest : (serveE answer p.2 cs).bind (fun q => Except.ok (p.1 :: q.1, q.2)) =
          .ok (rs, s') := by
        rw [hc] at h
        exact h
      cases hcs : serveE answer p.2 cs with
      | error e =>
        rw [hcs] at hrest
        cases hrest
      | ok q =>
        rw [hcs] at hrest
        cases hrest
        have hfirst := hle hc
        have hlast := ih hcs
        rw [List.length_cons]
        omega

/-- **Objects that agree on each call agree on every sequence of calls**, if the states
before the calls are all of the kind for which they do. -/
theorem serveE_refines {answer : σ → γ → Except ε (ρ × σ)} {spec : τ → γ → Except ε (ρ × τ)}
    {R : σ → τ → Prop} {P : τ → Prop}
    (hcall : ∀ {s t}, R s t → P t → ∀ c, ExceptRel (Agree R) (answer s c) (spec t c))
    {s : σ} {t : τ} (h : R s t) {cs : List γ}
    (hP : ∀ made rs t', made <+: cs → serveE spec t made = .ok (rs, t') → P t') :
    ExceptRel (Agree R) (serveE answer s cs) (serveE spec t cs) := by
  induction cs generalizing s t with
  | nil => exact ExceptRel.ok ⟨rfl, h⟩
  | cons c cs ih =>
    have hfirst := hcall h (hP [] [] t List.nil_prefix rfl) c
    rw [serveE, serveE]
    cases hspec : spec t c with
    | error e =>
      rw [hspec] at hfirst
      generalize answer s c = r at hfirst
      cases hfirst
      exact ExceptRel.error e
    | ok q =>
      rw [hspec] at hfirst
      generalize answer s c = r at hfirst
      cases hfirst with
      | ok hpq =>
        apply ExceptRel.bind (ih hpq.2 ?_)
        · intro ps qs hs
          apply ExceptRel.ok
          exact ⟨congrArg₂ List.cons hpq.1 hs.1, hs.2⟩
        · intro made rs t' hmade hrun
          refine hP (c :: made) (q.1 :: rs) t' (List.cons_prefix_cons.mpr ⟨rfl, hmade⟩) ?_
          rw [serveE, hspec]
          show (serveE spec q.2 made).bind _ = _
          rw [hrun]
          rfl

end Halting

end Eau2
