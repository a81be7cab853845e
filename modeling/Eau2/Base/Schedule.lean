import Mathlib

/-!
# Scheduled runs

A system of several threads is a partial step function: `step s t` is the state
after thread `t` moves, or `none` where `t` cannot move.  A schedule is the list
of threads that moved.

* `run_snoc`: a run ends with its last step.
* `run_induction`: what holds at the start and survives a step holds after every
  run; the schedule so far is part of what may be talked about.
* `run_prefix`: a run passes through the states of its prefixes.
* `trace`: what an observer writes down along a run (`mem_trace`).
* `always`: a check of every step of a run, made while running it (`of_always`,
  `always_snoc`).
-/

namespace Eau2

namespace Schedule

variable {σ ε : Type} {τ : Type*} (step : σ → τ → Option σ)

def run (s : σ) (ts : List τ) : Option σ := ts.foldlM step s

def trace (obs : σ → τ → List ε) (s : σ) : List τ → List ε
  | [] => []
  | t :: ts =>
    obs s t ++ match step s t with
      | some s' => trace obs s' ts
      | none => []

def always (p : σ → τ → Bool) (s : σ) : List τ → Bool
  | [] => true
  | t :: ts =>
    p s t && match step s t with
      | some s' => always p s' ts
      | none => true

variable {step}

@[simp] theorem run_nil (s : σ) : run step s [] = some s := rfl

theorem run_append (s : σ) (ts us : List τ) :
    run step s (ts ++ us) = (run step s ts).bind fun s' => run step s' us := by
  rw [run, List.foldlM_append]
  rfl

theorem run_snoc_eq (s : σ) (ts : List τ) (t : τ) :
    run step s (ts ++ [t]) = (run step s ts).bind fun s' => step s' t := by
  rw [run_append]
  congr 1
  funext s'
  show (step s' t).bind some = _
  cases step s' t <;> rfl

/-- **A run of one step more is a run and a step.** -/
theorem run_snoc {s s'' : σ} {ts : List τ} {t : τ} :
    run step s (ts ++ [t]) = some s'' ↔
      ∃ s', run step s ts = some s' ∧ step s' t = some s'' := by
  rw [run_snoc_eq, Option.bind_eq_some_iff]

/-- **Induction over a run.** -/
theorem run_induction {s : σ} {P : List τ → σ → Prop} (init : P [] s)
    (next : ∀ ts s' t s'', run step s ts = some s' → P ts s' → step s' t = some s'' →
      P (ts ++ [t]) s'') {ts : List τ} {s' : σ} (h : run step s ts = some s') : P ts s' := by
  induction ts using List.reverseRecOn generalizing s' with
  | nil =>
    cases h
    exact init
  | append_singleton ts t ih =>
    obtain ⟨s₁, h₁, ht⟩ := run_snoc.mp h
    exact next ts s₁ t s' h₁ (ih h₁) ht

theorem run_prefix {s s' : σ} {ts us : List τ} (h : run step s (ts ++ us) = some s') :
    ∃ s₁, run step s ts = some s₁ ∧ run step s₁ us = some s' := by
  rw [run_append] at h
  exact Option.bind_eq_some_iff.mp h

theorem trace_append {s s' : σ} (obs : σ → τ → List ε) {ts : List τ}
    (h : run step s ts = some s') (us : List τ) :
    trace step obs s (ts ++ us) = trace step obs s ts ++ trace step obs s' us := by
  induction ts generalizing s with
  | nil =>
    cases h
    rfl
  | cons t ts ih =>
    have h' : (step s t).bind (fun s₁ => run step s₁ ts) = some s' := h
    obtain ⟨s₁, h₁, h₂⟩ := Option.bind_eq_some_iff.mp h'
    simp only [List.cons_append, trace, h₁, ih h₂, List.append_assoc]

theorem trace_snoc {s s' : σ} (obs : σ → τ → List ε) {ts : List τ}
    (h : run step s ts = some s') (t : τ) :
    trace step obs s (ts ++ [t]) = trace step obs s ts ++ obs s' t := by
  rw [trace_append obs h]
  congr 1
  show obs s' t ++ _ = obs s' t
  split <;> exact List.append_nil _

theorem mem_trace {obs : σ → τ → List ε} {s : σ} {ts : List τ} {e : ε}
    (h : e ∈ trace step obs s ts) : ∃ ts₁ t s₁, ts₁ ++ [t] <+: ts ∧
      run step s ts₁ = some s₁ ∧ e ∈ obs s₁ t := by
  induction ts generalizing s with
  | nil => cases h
  | cons t ts ih =>
    rcases List.mem_append.mp h with h | h
    · exact ⟨[], t, s, ⟨ts, rfl⟩, rfl, h⟩
    · split at h
      · rename_i s' hs
        obtain ⟨ts₁, t', s₁, hpre, hr, hobs⟩ := ih h
        refine ⟨t :: ts₁, t', s₁, ?_, ?_, hobs⟩
        · exact List.cons_prefix_cons.mpr ⟨rfl, hpre⟩
        · show (step s t).bind (fun s₂ => run step s₂ ts₁) = some s₁
          rw [hs]
          exact hr
      · cases h

/-- **What is checked along a run holds before each of its steps.** -/
theorem of_always {p : σ → τ → Bool} {s s' : σ} {ts ts₁ : List τ} {t : τ}
    (h : always step p s ts = true) (hp : ts₁ ++ [t] <+: ts) (hr : run step s ts₁ = some s') :
    p s' t = true := by
  induction ts₁ generalizing s ts with
  | nil =>
    obtain ⟨us, rfl⟩ := hp
    cases hr
    exact (Bool.and_eq_true_iff.mp h).1
  | cons u ts₁ ih =>
    obtain ⟨us, rfl⟩ := hp
    have hu : (step s u).bind (fun s₁ => run step s₁ ts₁) = some s' := hr
    obtain ⟨s₁, h₁, hr₁⟩ := Option.bind_eq_some_iff.mp hu
    have hrest := (Bool.and_eq_true_iff.mp h).2
    rw [h₁] at hrest
    exact ih hrest ⟨us, rfl⟩ hr₁

theorem always_append {p : σ → τ → Bool} {s s' : σ} {ts : List τ} (h : run step s ts = some s')
    (us : List τ) : always step p s (ts ++ us) = (always step p s ts && always step p s' us) := by
  induction ts generalizing s with
  | nil =>
    cases h
    rfl
  | cons t ts ih =>
    have h' : (step s t).bind (fun s₁ => run step s₁ ts) = some s' := h
    obtain ⟨s₁, h₁, h₂⟩ := Option.bind_eq_some_iff.mp h'
    simp only [List.cons_append, always, h₁, ih h₂, Bool.and_assoc]

theorem always_snoc {p : σ → τ → Bool} {s s' : σ} {ts : List τ} (h : run step s ts = some s')
    (t : τ) : always step p s (ts ++ [t]) = (always step p s ts && p s' t) := by
  rw [always_append h]
  congr 1
  show (p s' t && _) = p s' t
  split <;> exact Bool.and_true _

end Schedule

end Eau2
