import Eau2.Base.Schedule

/-!
# Fair runs

A run without end: at each moment one thread moves, or none does, and a thread that
can move from some moment on moves again (weak fairness).

* `FairRun.run`: at each moment the run is that of a finite schedule.
* `FairRun.ensures`: what keeps a thread ready until it moves makes it move.
* `exists_forall_lt`: what comes to hold of each of finitely many comes to hold of all.
* `FairRun.ofStuck`: a finite run to a state in which nothing can move is fair.
* `FairRun.ofTurns`: there are fair runs: the threads take turns, each without end.
* `FairRun.ofGuarded`: keeping threads back for a while loses no fairness.
* `Lockstep`: two systems that take the same steps have the same runs (`FairRun.map`,
  `FairRun.lift`).
-/

namespace Eau2

namespace Schedule

theorem exists_forall_lt {P : UInt64 → ℕ → Prop} (mono : ∀ i n m, n ≤ m → P i n → P i m)
    {b : UInt64} (h : ∀ i, i < b → ∃ n, P i n) : ∃ n, ∀ i, i < b → P i n := by
  have key : ∀ l : ℕ, ∃ n, ∀ i : UInt64, i < b → i.toNat < l → P i n := by
    intro l
    induction l with
    | zero => exact ⟨0, fun i _ hi => absurd hi (Nat.not_lt_zero _)⟩
    | succ l ih =>
      obtain ⟨n, hn⟩ := ih
      by_cases hl : ∃ i : UInt64, i < b ∧ i.toNat = l
      · obtain ⟨i, hi, rfl⟩ := hl
        obtain ⟨m, hm⟩ := h i hi
        refine ⟨max n m, fun i' hi' hlt => ?_⟩
        rcases Nat.lt_succ_iff_lt_or_eq.mp hlt with hlt | heq
        · exact mono i' n _ (le_max_left n m) (hn i' hi' hlt)
        · rw [UInt64.toNat_inj.mp heq]
          exact mono i m _ (le_max_right n m) hm
      · refine ⟨n, fun i hi hlt => hn i hi ?_⟩
        rcases Nat.lt_succ_iff_lt_or_eq.mp hlt with hlt | heq
        · exact hlt
        · exact absurd ⟨i, hi, heq⟩ hl
  obtain ⟨n, hn⟩ := key b.toNat
  exact ⟨n, fun i hi => hn i hi (UInt64.lt_iff_toNat_lt.mp hi)⟩

variable {σ : Type} {τ : Type*} (step : σ → τ → Option σ)

/-- A fair run from `s`. -/
structure FairRun (s : σ) where
  state : ℕ → σ
  /-- The thread that moves. -/
  thread : ℕ → Option τ
  start : state 0 = s
  moves : ∀ n t, thread n = some t → step (state n) t = some (state (n + 1))
  waits : ∀ n, thread n = none → state (n + 1) = state n
  fair : ∀ t n, (∀ m, n ≤ m → (step (state m) t).isSome) → ∃ m, n ≤ m ∧ thread m = some t

variable {step} {s : σ}

namespace FairRun

/-- The threads that have moved before moment `n`. -/
def schedule (ρ : FairRun step s) (n : ℕ) : List τ := (List.range n).filterMap ρ.thread

theorem schedule_succ (ρ : FairRun step s) (n : ℕ) :
    ρ.schedule (n + 1) = ρ.schedule n ++ (ρ.thread n).toList := by
  rw [schedule, List.range_succ, List.filterMap_append, schedule]
  cases h : ρ.thread n <;> simp [h]

/-- **At each moment a finite schedule has been run.** -/
theorem run (ρ : FairRun step s) (n : ℕ) :
    Schedule.run step s (ρ.schedule n) = some (ρ.state n) := by
  induction n with
  | zero =>
    rw [ρ.start]
    rfl
  | succ n ih =>
    rw [ρ.schedule_succ]
    cases h : ρ.thread n with
    | none =>
      rw [ρ.waits n h, Option.toList_none, List.append_nil]
      exact ih
    | some t => exact run_snoc.mpr ⟨ρ.state n, ih, ρ.moves n t h⟩

/-- **A thread that stays ready until it moves does move.** -/
theorem ensures (ρ : FairRun step s) {t : τ} {P : ℕ → Prop} {n : ℕ} (h : P n)
    (ready : ∀ m, n ≤ m → P m → (step (ρ.state m) t).isSome)
    (keeps : ∀ m, n ≤ m → P m → ρ.thread m ≠ some t → P (m + 1)) :
    ∃ m, n ≤ m ∧ ρ.thread m = some t ∧ P m := by
  by_contra hno
  have hall : ∀ m, n ≤ m → P m := by
    intro m hm
    induction m, hm using Nat.le_induction with
    | base => exact h
    | succ m hm ih => exact keeps m hm ih fun ht => hno ⟨m, hm, ht, ih⟩
  obtain ⟨m, hm, ht⟩ := ρ.fair t n fun m hm => ready m hm (hall m hm)
  exact hno ⟨m, hm, ht, hall m hm⟩

/-- A schedule that ends where no thread can move, and then nothing more. -/
def ofStuck (ts : List τ) {s' : σ} (h : Schedule.run step s ts = some s')
    (hstuck : ∀ t, step s' t = none) : FairRun step s where
  state n := (Schedule.run step s (ts.take n)).getD s'
  thread n := ts[n]?
  start := rfl
  moves n t ht := by
    obtain ⟨hn, rfl⟩ := List.getElem?_eq_some_iff.mp ht
    rw [← List.take_append_drop (n + 1) ts] at h
    obtain ⟨s₂, hs₂, -⟩ := run_prefix h
    have hsnoc := hs₂
    rw [List.take_succ_eq_append_getElem hn] at hsnoc
    obtain ⟨s₁, hs₁, hstep⟩ := run_snoc.mp hsnoc
    rw [hs₁, hs₂]
    exact hstep
  waits n ht := by
    have hn := List.getElem?_eq_none_iff.mp ht
    rw [List.take_of_length_le hn, List.take_of_length_le (by omega)]
  fair t n hready := by
    have hend := hready (max n ts.length) (le_max_left _ _)
    rw [List.take_of_length_le (le_max_right _ _), h] at hend
    rw [Option.getD_some, hstuck] at hend
    cases hend

/-- **What is checked along the schedule holds before each step of the run.** -/
theorem ofStuck_always {ts : List τ} {s' : σ} (h : Schedule.run step s ts = some s')
    (hstuck : ∀ t, step s' t = none) {p : σ → τ → Bool} (hp : always step p s ts = true) {n : ℕ}
    {t : τ} (ht : (ofStuck ts h hstuck).thread n = some t) :
    p ((ofStuck ts h hstuck).state n) t = true := by
  obtain ⟨hn, rfl⟩ := List.getElem?_eq_some_iff.mp ht
  have hpre : ts.take n ++ [ts[n]] <+: ts := by
    rw [← List.take_succ_eq_append_getElem hn]
    exact List.take_prefix (n + 1) ts
  obtain ⟨s₁, hs₁, -⟩ := run_prefix (show Schedule.run step s (ts.take n ++ ts.drop n) = some s' by
    rwa [List.take_append_drop])
  have hstate : (ofStuck ts h hstuck).state n = s₁ := by
    show (Schedule.run step s (ts.take n)).getD s' = s₁
    rw [hs₁]
    rfl
  rw [hstate]
  exact of_always hp hpre hs₁

/-! ### Taking turns -/

section Turns

variable (step) (s)

/-- Whoever's turn it is moves, if it can. -/
def afterTurns (turn : ℕ → τ) : ℕ → σ
  | 0 => s
  | n + 1 => (step (afterTurns turn n) (turn n)).getD (afterTurns turn n)

/-- **A run in which everyone has its turn again and again is fair.** -/
def ofTurns (turn : ℕ → τ) (h : ∀ t n, ∃ m, n ≤ m ∧ turn m = t) : FairRun step s where
  state := afterTurns step s turn
  thread n := (step (afterTurns step s turn n) (turn n)).map fun _ => turn n
  start := rfl
  moves n t ht := by
    obtain ⟨s', hs, rfl⟩ := Option.map_eq_some_iff.mp ht
    rw [afterTurns, hs]
    rfl
  waits n ht := by
    rw [afterTurns, Option.map_eq_none_iff.mp ht]
    rfl
  fair t n hready := by
    obtain ⟨m, hm, rfl⟩ := h t n
    obtain ⟨s', hs⟩ := Option.isSome_iff_exists.mp (hready m hm)
    exact ⟨m, hm, by rw [hs]; rfl⟩

theorem exists_turns (τ : Type*) [Countable τ] [Nonempty τ] :
    ∃ turn : ℕ → τ, ∀ t n, ∃ m, n ≤ m ∧ turn m = t := by
  obtain ⟨f, hf⟩ := exists_surjective_nat τ
  refine ⟨fun n => f n.unpair.2, fun t n => ?_⟩
  obtain ⟨i, rfl⟩ := hf t
  refine ⟨Nat.pair n i, Nat.left_le_pair n i, ?_⟩
  show f (Nat.pair n i).unpair.2 = f i
  rw [Nat.unpair_pair]

end Turns

end FairRun

/-! ### Keeping threads back -/

/-- A thread that `p` keeps back does not move. -/
def guarded (step : σ → τ → Option σ) (p : σ → τ → Bool) (s : σ) (t : τ) : Option σ :=
  if p s t then step s t else none

variable {p : σ → τ → Bool}

theorem guarded_eq_some {s s' : σ} {t : τ} (h : guarded step p s t = some s') :
    p s t = true ∧ step s t = some s' := by
  rw [guarded] at h
  split at h
  · rename_i hp
    exact ⟨hp, h⟩
  · cases h

namespace FairRun

/-- **A run in which no thread is kept back for ever is fair.** -/
def ofGuarded (ρ : FairRun (guarded step p) s)
    (h : ∀ t n, (∀ m, n ≤ m → ρ.thread m ≠ some t) →
      ∃ n', n ≤ n' ∧ ∀ m, n' ≤ m → p (ρ.state m) t = true) : FairRun step s where
  state := ρ.state
  thread := ρ.thread
  start := ρ.start
  moves n t ht := (guarded_eq_some (ρ.moves n t ht)).2
  waits := ρ.waits
  fair t n hready := by
    by_contra hno
    obtain ⟨n', hle, hp⟩ := h t n fun m hm ht => hno ⟨m, hm, ht⟩
    obtain ⟨m, hm, ht⟩ := ρ.fair t n' fun m hm => by
      rw [guarded, if_pos (hp m hm)]
      exact hready m (hle.trans hm)
    exact hno ⟨m, hle.trans hm, ht⟩

end FairRun

/-! ### Two systems in lockstep -/

/-- From a state with `I` the two systems take the same steps; `f` says how a state of the
one looks in the other. -/
structure Lockstep {σ' : Type} (step : σ → τ → Option σ) (step' : σ' → τ → Option σ')
    (f : σ → σ') (I : σ → Prop) : Prop where
  keeps : ∀ s t s', I s → step s t = some s' → I s'
  step_eq : ∀ s t, I s → step' (f s) t = (step s t).map f

section

variable {σ' : Type} {step' : σ' → τ → Option σ'} {f : σ → σ'} {I : σ → Prop}

/-- **A run of the one is a run of the other.** -/
theorem Lockstep.run_eq (h : Lockstep step step' f I) (hs : I s) (ts : List τ) :
    run step' (f s) ts = (run step s ts).map f := by
  induction ts generalizing s with
  | nil => rfl
  | cons t ts ih =>
    show (step' (f s) t).bind _ = ((step s t).bind _).map f
    rw [h.step_eq s t hs]
    cases ht : step s t with
    | none => rfl
    | some s' => exact ih (h.keeps s t s' hs ht)

theorem Lockstep.keeps_run (h : Lockstep step step' f I) (hs : I s) {ts : List τ} {s' : σ}
    (hr : run step s ts = some s') : I s' :=
  run_induction (P := fun _ s => I s) hs (fun _ s t s' _ hI ht => h.keeps s t s' hI ht) hr

theorem Lockstep.isSome_eq (h : Lockstep step step' f I) (hs : I s) (t : τ) :
    (step' (f s) t).isSome = (step s t).isSome := by
  rw [h.step_eq s t hs, Option.isSome_map]

namespace FairRun

def map (ρ : FairRun step s) (h : Lockstep step step' f I) (hs : I s) : FairRun step' (f s) where
  state n := f (ρ.state n)
  thread := ρ.thread
  start := congrArg f ρ.start
  moves n t ht := by
    rw [h.step_eq _ t (h.keeps_run hs (ρ.run n)), ρ.moves n t ht]
    rfl
  waits n ht := congrArg f (ρ.waits n ht)
  fair t n hready := by
    refine ρ.fair t n fun m hm => ?_
    rw [← h.isSome_eq (h.keeps_run hs (ρ.run m))]
    exact hready m hm

theorem exists_state (ρ : FairRun step' (f s)) (h : Lockstep step step' f I) (hs : I s) (n : ℕ) :
    ∃ s', Schedule.run step s (ρ.schedule n) = some s' ∧ f s' = ρ.state n := by
  have hr := ρ.run n
  rw [h.run_eq hs, Option.map_eq_some_iff] at hr
  exact hr

/-- **A fair run of the other in the one.** -/
theorem exists_lift (ρ : FairRun step' (f s)) (h : Lockstep step step' f I) (hs : I s) :
    ∃ ρ' : FairRun step s, ρ'.thread = ρ.thread ∧ ∀ n, f (ρ'.state n) = ρ.state n := by
  choose state hrun hf using fun n => ρ.exists_state h hs n
  have hI : ∀ n, I (state n) := fun n => h.keeps_run hs (hrun n)
  refine ⟨⟨state, ρ.thread, ?_, fun n t ht => ?_, fun n ht => ?_, fun t n hready => ?_⟩, rfl, hf⟩
  · exact (Option.some.inj (hrun 0)).symm
  · have hsucc := hrun (n + 1)
    rw [ρ.schedule_succ, ht] at hsucc
    obtain ⟨s₁, hs₁, hstep⟩ := run_snoc.mp hsucc
    rw [hrun n] at hs₁
    cases hs₁
    exact hstep
  · have hsucc := hrun (n + 1)
    rw [ρ.schedule_succ, ht, Option.toList_none, List.append_nil, hrun n] at hsucc
    exact (Option.some.inj hsucc).symm
  · refine ρ.fair t n fun m hm => ?_
    rw [← hf m, h.isSome_eq (hI m)]
    exact hready m hm

end FairRun

end

end Schedule

end Eau2
