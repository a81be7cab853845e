import Eau2.Network.Pseudo.Progress

/-!
# There are orderly runs

The threads take turns, and an application whose drain would overtake the parking of a
waiter lets its receiver go first.  It does not wait for long: the key is stored, so once
the receiver has parked its waiter it parks no other one for that key.

* `Sound.exists_orderlyRun`: **all programs whose assertions cannot fail have a fair and orderly
  run.**
-/

namespace Eau2

namespace Pseudo

open Schedule (guarded guarded_eq_some)

variable {cfg : Config}

theorem isOrderly_of_ne {nd : Node} (h : ∀ k m, nd.app = .draining k → nd.rcv ≠ .parking k m) :
    isOrderly nd .app = true := by
  unfold isOrderly
  split
  · rename_i k k' m _ ha hr
    refine decide_eq_true ?_
    rintro rfl
    exact h k m ha hr
  · rfl

/-- A receiver that is not about to park a waiter for a stored key does not come to it. -/
theorem Moved.not_parking {st st' : Cluster} {t : ThreadId} {nd : Node} {out : List Message}
    (hm : Moved cfg st t nd out st') {j : SizeT} {k : Key}
    (hst : ((st.nodes j).kv.lookup k).isSome) (h : ∀ m, (st.nodes j).rcv ≠ .parking k m)
    (m : Message) : (st'.nodes j).rcv ≠ .parking k m := by
  by_cases ht : t = (j, .rcv)
  · subst ht
    obtain ⟨hs, hself⟩ := hm.rcvStep
    rw [hself, Node.push_rcv]
    cases hs with
    | miss m' k' hr hb hk hv =>
      rintro ⟨⟩
      rw [hv] at hst
      cases hst
    | handleDone m' hr hb hz hlt =>
      show (if _ then RcvPc.tearingDown 0 else .receiving) ≠ _
      split <;> simp
    | _ => simp
  · rw [(hm.rcv ht).1]
    exact h m

theorem RcvStep.parked {nd nd' : Node} {out : List Message} (hs : RcvStep cfg nd nd' out) {k : Key}
    {m : Message} (hr : nd.rcv = .parking k m) : nd'.rcv = .receiving := by
  cases hs <;> simp_all

section Guarded

variable (ρ : Schedule.FairRun (guarded (step cfg) isOrderlyStep) Cluster.init)

theorem reachable_of_guarded (n : ℕ) : Reachable cfg (ρ.state n) := by
  induction n with
  | zero =>
    rw [ρ.start]
    exact ⟨[], rfl⟩
  | succ n ih =>
    cases ht : ρ.thread n with
    | none => rwa [ρ.waits n ht]
    | some t => exact ih.next (guarded_eq_some (ρ.moves n t ht)).2

variable {ρ} {j : SizeT}

theorem Sound.moved_of_guarded (hc : Sound cfg) {n : ℕ} {t : ThreadId} (ht : ρ.thread n = some t) :
    ∃ nd out, Moved cfg (ρ.state n) t nd out (ρ.state (n + 1)) :=
  hc.moved (reachable_of_guarded ρ n) (guarded_eq_some (ρ.moves n t ht)).2

theorem Sound.app_stays_guarded (hc : Sound cfg) {n : ℕ}
    (hno : ∀ m, n ≤ m → ρ.thread m ≠ some (j, .app)) {m : ℕ} (hm : n ≤ m) : ((ρ.state m).nodes j).app = ((ρ.state n).nodes j).app := by
  induction m, hm using Nat.le_induction with
  | base => rfl
  | succ m hm ih =>
    rw [← ih]
    cases ht : ρ.thread m with
    | none => rw [ρ.waits m ht]
    | some t =>
      obtain ⟨nd, out, hmoved⟩ := hc.moved_of_guarded ht
      refine hmoved.app ?_
      rintro rfl
      exact hno m hm ht

/-- **An application is not kept back for ever.** -/
theorem Sound.not_kept_back (hc : Sound cfg) {n : ℕ}
    (hno : ∀ m, n ≤ m → ρ.thread m ≠ some (j, .app)) :
    ∃ n', n ≤ n' ∧ ∀ m, n' ≤ m → isOrderly ((ρ.state m).nodes j) .app = true := by
  have hstays : ∀ m, n ≤ m → ((ρ.state m).nodes j).app = ((ρ.state n).nodes j).app :=
    fun m hm => hc.app_stays_guarded hno hm
  by_cases hd : ∃ k, ((ρ.state n).nodes j).app = .draining k
  swap
  · refine ⟨n, Nat.le_refl n, fun m hm => isOrderly_of_ne fun k _ ha _ => hd ⟨k, ?_⟩⟩
    rw [← hstays m hm]
    exact ha
  obtain ⟨k, hd⟩ := hd
  -- the key of the drain is stored
  have hstored : ∀ m, n ≤ m → (((ρ.state m).nodes j).kv.lookup k).isSome := by
    intro m hm
    have happ := ((reachable_of_guarded ρ m).inv.nodes j).app
    rw [hstays m hm, hd] at happ
    exact happ.2
  suffices h : ∃ n', n ≤ n' ∧ ∀ q, ((ρ.state n').nodes j).rcv ≠ .parking k q by
    obtain ⟨n', hle, hn'⟩ := h
    have hpast : ∀ m, n' ≤ m → ∀ q, ((ρ.state m).nodes j).rcv ≠ .parking k q := by
      intro m hm
      induction m, hm using Nat.le_induction with
      | base => exact hn'
      | succ m hm ih =>
        cases ht : ρ.thread m with
        | none => rwa [ρ.waits m ht]
        | some t =>
          obtain ⟨nd, out, hmoved⟩ := hc.moved_of_guarded ht
          exact fun q => hmoved.not_parking (hstored m (hle.trans hm)) ih q
    refine ⟨n', hle, fun m hm => isOrderly_of_ne fun k' q ha hr => ?_⟩
    rw [hstays m (hle.trans hm), hd] at ha
    cases ha
    exact hpast m hm q hr
  -- the receiver parks the waiter it has
  by_contra hall
  have hpark : ∀ m, n ≤ m → ∃ q, ((ρ.state m).nodes j).rcv = .parking k q := by
    intro m hm
    by_contra hq
    exact hall ⟨m, hm, fun q hr => hq ⟨q, hr⟩⟩
  have hlt : j < cfg.numNodes :=
    (reachable_of_guarded ρ n).lt_of_app hd fun hc => by cases hc
  obtain ⟨m, hm, ht⟩ := ρ.fair (j, .rcv) n fun m hm => by
    obtain ⟨q, hr⟩ := hpark m hm
    have hreach := reachable_of_guarded ρ m
    obtain ⟨o, ho⟩ : ∃ o, rcvStep cfg ((ρ.state m).nodes j) = some o :=
      exists_rcvStep (hc.lockHeld hreach j) (by rw [hr]; simp) (by rw [hr]; simp)
    exact hc.ready (t := (j, .rcv)) hreach hlt ho
  obtain ⟨nd, out, hmoved⟩ := hc.moved_of_guarded ht
  obtain ⟨hs, hself⟩ := hmoved.rcvStep
  obtain ⟨q, hr⟩ := hpark m hm
  obtain ⟨q', hr'⟩ := hpark (m + 1) (by omega)
  rw [hself, Node.push_rcv, hs.parked hr] at hr'
  cases hr'

end Guarded

/-- **There is a fair and orderly run.** -/
theorem Sound.exists_orderlyRun (hc : Sound cfg) : ∃ ρ : Fair cfg, OrderlyRun ρ := by
  have hcount : Countable ThreadId := by
    have : Function.Injective fun t : ThreadId => (t.1.toNat, decide (t.2 = .app)) := by
      rintro ⟨i, r⟩ ⟨i', r'⟩ he
      obtain ⟨hi, hr⟩ := Prod.mk.inj he
      refine Prod.ext (UInt64.toNat_inj.mp hi) ?_
      cases r <;> cases r' <;> first | rfl | cases hr
    exact this.countable
  have hne : Nonempty ThreadId := ⟨(0, .app)⟩
  obtain ⟨turn, hturn⟩ := Schedule.FairRun.exists_turns ThreadId
  let ρ : Schedule.FairRun (guarded (step cfg) isOrderlyStep) Cluster.init :=
    .ofTurns _ _ turn hturn
  refine ⟨ρ.ofGuarded fun t n hno => ?_, fun n j ht => ?_⟩
  · obtain ⟨j, r⟩ := t
    cases r with
    | app => exact hc.not_kept_back hno
    | rcv => exact ⟨n, Nat.le_refl n, fun _ _ => rfl⟩
  · exact orderly_of_isOrderly (guarded_eq_some (ρ.moves n _ ht)).1

end Pseudo

end Eau2
