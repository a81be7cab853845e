import Mathlib

/-!
# Programs that make calls

A program makes a call, goes on with the reply, and in the end returns.  `Prog` is the
tree of what it may do.  A system that runs it sees only the function `next` from the
replies so far to the next call, or any other such function.

* `Follows.comparable`: two runs of a program whose calls are answered alike have seen
  the same replies, as far as both have come.
* `exec`: a program alone with an object (`exec_bind`: and one after another).
* `Steps`: and a part of such a run.
* `result_of_isPrefix`: what a program returns does not change any more.
* `All`: a property of all calls that a program may make.
-/

namespace Eau2

variable {ω ρ σ : Type} {α β : Type}

/-! ### Replies -/

/-- `rs` are replies that a program which goes on by `next` has got; `answer op` is what a
call returns wherever it returns anything. -/
inductive Follows (answer : ω → Option ρ) (next : List ρ → Option ω) : List ρ → Prop
  | nil : Follows answer next []
  | snoc {rs : List ρ} {op : ω} {r : ρ} : Follows answer next rs → next rs = some op →
      answer op = some r → Follows answer next (rs ++ [r])

namespace Follows

variable {answer : ω → Option ρ} {next : List ρ → Option ω}

theorem of_snoc {rs : List ρ} {r : ρ} (h : Follows answer next (rs ++ [r])) :
    Follows answer next rs ∧ ∃ op, next rs = some op ∧ answer op = some r := by
  generalize hrs : rs ++ [r] = rs' at h
  cases h with
  | nil => simp at hrs
  | snoc h hop hr =>
    obtain ⟨rfl, hone⟩ := List.append_inj' hrs rfl
    cases hone
    exact ⟨h, _, hop, hr⟩

theorem of_append {rs us : List ρ} (h : Follows answer next (rs ++ us)) :
    Follows answer next rs := by
  induction us using List.reverseRecOn with
  | nil => rwa [List.append_nil] at h
  | append_singleton us u ih =>
    rw [← List.append_assoc] at h
    exact ih h.of_snoc.1

theorem reply {rs us : List ρ} {r : ρ} (h : Follows answer next (rs ++ r :: us)) :
    ∃ op, next rs = some op ∧ answer op = some r := by
  rw [List.append_cons] at h
  exact h.of_append.of_snoc.2

theorem mono {answer' : ω → Option ρ} (h : ∀ op r, answer op = some r → answer' op = some r)
    {rs : List ρ} (hrs : Follows answer next rs) : Follows answer' next rs := by
  induction hrs with
  | nil => exact .nil
  | snoc _ hop hr ih => exact ih.snoc hop (h _ _ hr)

/-- **The replies of two runs are the same as far as both have come.** -/
theorem comparable {rs rs' : List ρ} (h : Follows answer next rs)
    (h' : Follows answer next rs') : rs <+: rs' ∨ rs' <+: rs := by
  induction h with
  | nil => exact Or.inl List.nil_prefix
  | @snoc rs op r h hop hr ih =>
    rcases ih with ⟨us, rfl⟩ | hle
    · cases us with
      | nil =>
        rw [List.append_nil]
        exact Or.inr (List.prefix_append rs [r])
      | cons u us =>
        obtain ⟨op', hop', hu⟩ := h'.reply
        rw [hop] at hop'
        cases hop'
        rw [hr] at hu
        cases hu
        exact Or.inl ⟨us, by rw [List.append_assoc, List.singleton_append]⟩
    · exact Or.inr (hle.trans (List.prefix_append rs [r]))

theorem le_of_ends {rs rs' : List ρ} (h : Follows answer next rs) (hend : next rs = none)
    (h' : Follows answer next rs') : rs' <+: rs := by
  rcases h.comparable h' with ⟨us, rfl⟩ | hle
  · cases us with
    | nil => exact ⟨[], by rw [List.append_nil, List.append_nil]⟩
    | cons u us =>
      obtain ⟨op, hop, -⟩ := h'.reply
      rw [hend] at hop
      cases hop
  · exact hle

end Follows

/-! ### Trees of calls -/

/-- A program with calls in `ω`, replies in `ρ` and a result in `α`. -/
inductive Prog (ω ρ : Type) (α : Type)
  | ret (a : α)
  | call (op : ω) (rest : ρ → Prog ω ρ α)

namespace Prog

def bind : Prog ω ρ α → (α → Prog ω ρ β) → Prog ω ρ β
  | ret a, f => f a
  | call op rest, f => call op fun r => (rest r).bind f

instance : Monad (Prog ω ρ) where
  pure := ret
  bind := bind

@[simp] theorem pure_eq (a : α) : (pure a : Prog ω ρ α) = ret a := rfl

theorem bind_ret (p : Prog ω ρ α) : p >>= ret = p := by
  show p.bind ret = p
  induction p with
  | ret a => rfl
  | call op rest ih => exact congrArg (call op) (funext ih)

def request (op : ω) : Prog ω ρ ρ := call op ret

def after : Prog ω ρ α → List ρ → Prog ω ρ α
  | ret a, _ => ret a
  | call op rest, [] => call op rest
  | call _ rest, r :: rs => (rest r).after rs

def head : Prog ω ρ α → Option ω
  | ret _ => none
  | call op _ => some op

def value : Prog ω ρ α → Option α
  | ret a => some a
  | call _ _ => none

def next (p : Prog ω ρ α) (rs : List ρ) : Option ω := (p.after rs).head

def result (p : Prog ω ρ α) (rs : List ρ) : Option α := (p.after rs).value

/-- The program alone with an object that answers its calls: what it returns, and the state
it leaves; `none` where a call is not answered. -/
def exec (answer : σ → ω → Option (ρ × σ)) : Prog ω ρ α → σ → Option (α × σ)
  | ret a, s => some (a, s)
  | call op rest, s =>
    match answer s op with
    | some (r, s) => (rest r).exec answer s
    | none => none

section

variable (answer : σ → ω → Option (ρ × σ))

@[simp] theorem exec_ret (a : α) (s : σ) : (ret a : Prog ω ρ α).exec answer s = some (a, s) := rfl

@[simp] theorem exec_request (op : ω) (s : σ) : (request op).exec answer s = answer s op := by
  rw [request, exec]
  cases answer s op <;> rfl

/-- **One program after another.** -/
@[simp] theorem exec_bind (p : Prog ω ρ α) (f : α → Prog ω ρ β) (s : σ) :
    (p >>= f).exec answer s = (p.exec answer s).bind fun q => (f q.1).exec answer q.2 := by
  show (p.bind f).exec answer s = _
  induction p generalizing s with
  | ret a => rfl
  | call op rest ih =>
    rw [bind, exec, exec]
    cases answer s op with
    | none => rfl
    | some q => exact ih q.1 q.2

end

/-! ### Parts of a run -/

/-- The program makes some calls, and `p'` is left of it. -/
inductive Steps (answer : σ → ω → Option (ρ × σ)) :
    Prog ω ρ α → σ → Prog ω ρ α → σ → Prop
  | refl (p : Prog ω ρ α) (s : σ) : Steps answer p s p s
  | call {op : ω} {rest : ρ → Prog ω ρ α} {s s₁ s' : σ} {r : ρ} {p' : Prog ω ρ α} :
      answer s op = some (r, s₁) → Steps answer (rest r) s₁ p' s' →
        Steps answer (call op rest) s p' s'

namespace Steps

variable {answer : σ → ω → Option (ρ × σ)} {s s' s'' : σ}

theorem trans {p p' p'' : Prog ω ρ α} (h : Steps answer p s p' s')
    (h' : Steps answer p' s' p'' s'') : Steps answer p s p'' s'' := by
  induction h with
  | refl p s => exact h'
  | call hr _ ih => exact .call hr (ih h')

/-- **A part that comes to its end leaves the rest.** -/
theorem of_exec {p : Prog ω ρ α} {f : α → Prog ω ρ β} {a : α}
    (h : p.exec answer s = some (a, s')) : Steps answer (p >>= f) s (f a) s' := by
  show Steps answer (p.bind f) s (f a) s'
  induction p generalizing s with
  | ret b =>
    cases h
    exact .refl _ _
  | call op rest ih =>
    rw [exec] at h
    split at h
    · rename_i r s₁ hr
      exact .call hr (ih r h)
    · cases h

theorem of_exec_ret {p : Prog ω ρ α} {a : α} (h : p.exec answer s = some (a, s')) :
    Steps answer p s (ret a) s' := by
  have hsteps : Steps answer (p >>= ret) s (ret a) s' := of_exec h
  rwa [bind_ret] at hsteps

theorem bind {p p' : Prog ω ρ α} (h : Steps answer p s p' s') (f : α → Prog ω ρ β) :
    Steps answer (p >>= f) s (p' >>= f) s' := by
  induction h with
  | refl p s => exact .refl _ s
  | call hr _ ih => exact .call hr ih

end Steps

/-! ### The calls a program may make -/

/-- Some replies make the program return `a`. -/
inductive MayReturn : Prog ω ρ α → α → Prop
  | ret (a : α) : MayReturn (ret a) a
  | call {op : ω} {rest : ρ → Prog ω ρ α} {a : α} (r : ρ) :
      MayReturn (rest r) a → MayReturn (call op rest) a

theorem MayReturn.of_bind {p : Prog ω ρ α} {f : α → Prog ω ρ β} {b : β}
    (h : (p >>= f).MayReturn b) : ∃ a, p.MayReturn a ∧ (f a).MayReturn b := by
  change (p.bind f).MayReturn b at h
  induction p with
  | ret a => exact ⟨a, .ret a, h⟩
  | call op rest ih =>
    cases h with
    | call r h =>
      obtain ⟨a, ha, hb⟩ := ih r h
      exact ⟨a, .call r ha, hb⟩

/-- Whatever the replies, every call is one that satisfies `P`. -/
inductive All (P : ω → Prop) : Prog ω ρ α → Prop
  | ret (a : α) : All P (ret a)
  | call {op : ω} {rest : ρ → Prog ω ρ α} : P op → (∀ r, All P (rest r)) → All P (call op rest)

namespace All

variable {P : ω → Prop}

theorem request {op : ω} (h : P op) : All P (request op : Prog ω ρ ρ) := .call h .ret

theorem bind_of {p : Prog ω ρ α} {f : α → Prog ω ρ β} (h : All P p)
    (hf : ∀ a, p.MayReturn a → All P (f a)) : All P (p >>= f) := by
  show All P (p.bind f)
  induction h with
  | ret a => exact hf a (.ret a)
  | call hop _ ih => exact .call hop fun r => ih r fun a ha => hf a (.call r ha)

theorem bind {p : Prog ω ρ α} {f : α → Prog ω ρ β} (h : All P p) (hf : ∀ a, All P (f a)) :
    All P (p >>= f) := h.bind_of fun a _ => hf a

theorem after {p : Prog ω ρ α} (h : All P p) (rs : List ρ) : All P (p.after rs) := by
  induction h generalizing rs with
  | ret a => exact .ret a
  | call hop hrest ih =>
    cases rs with
    | nil => exact .call hop hrest
    | cons r rs => exact ih r rs

theorem of_next {p : Prog ω ρ α} (h : All P p) {rs : List ρ} {op : ω}
    (hop : p.next rs = some op) : P op := by
  have hafter := h.after rs
  rw [next] at hop
  generalize p.after rs = q at hafter hop
  cases hafter with
  | ret a => cases hop
  | call hP _ =>
    cases hop
    exact hP

end All

/-! ### A run of a tree -/

variable {answer : ω → Option ρ} {p : Prog ω ρ α}

theorem after_nil (p : Prog ω ρ α) : p.after [] = p := by
  cases p <;> rfl

theorem after_snoc (p : Prog ω ρ α) (rs : List ρ) (r : ρ) :
    p.after (rs ++ [r]) = (p.after rs).after [r] := by
  induction p generalizing rs with
  | ret a => rfl
  | call op rest ih =>
    cases rs with
    | nil => rfl
    | cons r' rs => exact ih r' rs

theorem after_of_next {rs : List ρ} {op : ω} (h : p.next rs = some op) :
    ∃ rest, p.after rs = call op rest ∧ ∀ r, p.after (rs ++ [r]) = rest r := by
  rw [next] at h
  cases hp : p.after rs with
  | ret a =>
    rw [hp] at h
    cases h
  | call op' rest =>
    rw [hp] at h
    cases h
    refine ⟨rest, rfl, fun r => ?_⟩
    rw [after_snoc, hp]
    exact after_nil (rest r)

theorem result_of_isPrefix {rs rs' : List ρ} {a : α} (h : p.result rs = some a)
    (hle : rs <+: rs') : p.result rs' = some a := by
  have hret : p.after rs = ret a := by
    rw [result] at h
    cases hp : p.after rs with
    | ret b =>
      rw [hp] at h
      cases h
      rfl
    | call op rest =>
      rw [hp] at h
      cases h
  obtain ⟨us, rfl⟩ := hle
  have hafter : p.after (rs ++ us) = ret a := by
    induction us using List.reverseRecOn with
    | nil => rwa [List.append_nil]
    | append_singleton us u ih =>
      rw [← List.append_assoc, after_snoc, ih]
      rfl
  rw [result, hafter]
  rfl

end Prog

end Eau2
