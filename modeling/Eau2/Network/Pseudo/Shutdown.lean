import Eau2.Network.Pseudo.Progress

/-!
# Every node shuts down

In a fair run in which every `run_` returns, each node sends its `DoneMsg`, the server
handles them all and begins its broadcast, each receiver handles its `TeardownMsg` and
stops, and each application joins it.

* `shuts_down`: **both threads of every node come to their end.**
-/

namespace Eau2

namespace Pseudo

variable {cfg : Config} {ρ : Fair cfg} {i j : SizeT}

/-! ### What stays -/

theorem AppStep.hasLeft {nd nd' : Node} {out : List Message} (hs : AppStep cfg nd nd' out)
    (h : HasLeft nd = true) : HasLeft nd' = true := by
  cases hs <;> simp_all [HasLeft]

theorem Sound.left_stays (hc : Sound cfg) {n m : ℕ} (hle : n ≤ m)
    (h : HasLeft ((ρ.state n).nodes i) = true) : HasLeft ((ρ.state m).nodes i) = true := by
  refine hc.stays (P := fun nd => HasLeft nd = true) (fun nd nd' r out _ hs h => ?_)
    (fun _ _ h => h) hle h
  cases r with
  | app => exact AppStep.hasLeft hs h
  | rcv => rwa [HasLeft, RcvStep.app hs]

theorem Sound.exited_stays (hc : Sound cfg) {n m : ℕ} (hle : n ≤ m)
    (h : ((ρ.state n).nodes i).rcv = .exited) : ((ρ.state m).nodes i).rcv = .exited := by
  refine hc.stays (P := fun nd => nd.rcv = .exited) (fun nd nd' r out _ hs h => ?_)
    (fun _ _ h => h) hle h
  cases r with
  | app => exact (AppStep.inbox hs).2.1.trans h
  | rcv => exact absurd h (RcvStep.ne_exited hs)

theorem Sound.finished_stays (hc : Sound cfg) {n m : ℕ} (hle : n ≤ m)
    (h : ((ρ.state n).nodes i).app = .finished) : ((ρ.state m).nodes i).app = .finished := by
  refine hc.stays (P := fun nd => nd.app = .finished) (fun nd nd' r out _ hs h => ?_)
    (fun _ _ h => h) hle h
  cases r with
  | app =>
    replace hs : AppStep cfg nd nd' out := hs
    cases hs <;> simp_all
  | rcv => exact (RcvStep.app hs).trans h

theorem Sound.done_stays (hc : Sound cfg) {n m : ℕ} (hle : n ≤ m)
    (h : ((ρ.state n).nodes 0).isNodeDone i = true) :
    ((ρ.state m).nodes 0).isNodeDone i = true := by
  refine hc.stays (P := fun nd => nd.isNodeDone i = true) (fun nd nd' r out hok hs h => ?_)
    (fun _ _ h => h) hle h
  cases r with
  | app => exact ((AppStep.inbox hs).2.2 ▸ h : nd'.isNodeDone i = true)
  | rcv => exact (RcvStep.isNodeDone hok hs i).mpr (Or.inl h)

/-! ### `DoneMsg`s -/

theorem Sound.leaves (hc : Sound cfg) (hlt : i < cfg.numNodes) {n : ℕ}
    (h : HasReturned ((ρ.state n).nodes i) = true) :
    ∃ m, n ≤ m ∧ HasLeft ((ρ.state m).nodes i) = true := by
  rw [HasReturned] at h
  split at h
  · rename_i ha
    obtain ⟨m, hm, ht, ha⟩ := hc.app_moves hlt ha fun nd ha _ => by
      rw [appStep, ha]
      exact ⟨_, rfl⟩
    obtain ⟨nd, out, hmoved⟩ := hc.moves ht
    have hs : AppStep cfg ((ρ.state m).nodes i) nd out := hmoved.node
    refine ⟨m + 1, by omega, ?_⟩
    rw [hmoved.self]
    cases hs with
    | done ha' ht' => rfl
    | _ => simp_all
  · rename_i ha
    exact ⟨n, Nat.le_refl n, by rw [HasLeft, ha]⟩
  · rename_i ha
    exact ⟨n, Nat.le_refl n, by rw [HasLeft, ha]⟩
  · cases h

/-- What has been sent to a node is handled by a step of its receiver, or has been. -/
theorem Sound.handles_sent (hc : Sound cfg) (hlt : j < cfg.numNodes) {n : ℕ} {q : Message}
    (hq : q ∈ toNode (sentLog cfg (ρ.schedule n)) j) :
    q ∈ handledLog cfg j (ρ.schedule n) ∨
      ∃ m, n ≤ m ∧ ρ.thread m = some (j, .rcv) ∧ ((ρ.state m).nodes j).rcv = .handling q := by
  have hd : Down cfg (ρ.schedule n) (ρ.state n) := down_run hc.blocking hc.server (ρ.run n)
  rw [hd.fifo, List.mem_append, inbox, List.mem_append, mem_current] at hq
  refine hq.imp_right fun hq => ?_
  obtain ⟨n₁, hle, hr⟩ : ∃ n₁, n ≤ n₁ ∧ ((ρ.state n₁).nodes j).rcv = .handling q := by
    rcases hq with hr | hq
    · exact ⟨n, Nat.le_refl n, hr⟩
    · exact handles hc hlt hq
  obtain ⟨m, hm, ht, hr⟩ := hc.busy_moves hlt hr (by simp) (by simp)
  exact ⟨m, hle.trans hm, ht, hr⟩

theorem Sound.ticks_off (hc : Sound cfg) (h0 : 0 < cfg.numNodes) {n : ℕ}
    (h : HasLeft ((ρ.state n).nodes i) = true) :
    ∃ m, ((ρ.state m).nodes 0).isNodeDone i = true := by
  have hd : Down cfg (ρ.schedule n) (ρ.state n) := down_run hc.blocking hc.server (ρ.run n)
  have hpos : 0 < (sentLog cfg (ρ.schedule n)).countP (isDone i) := by
    rw [hd.sentDone, if_pos h]
    exact Nat.one_pos
  obtain ⟨q, hq, hdone⟩ := List.countP_pos_iff.mp hpos
  simp only [isDone, Bool.and_eq_true, decide_eq_true_eq] at hdone
  rcases hc.handles_sent h0 (mem_toNode.mpr ⟨hq, hd.doneTo q hq hdone.1⟩) with
    hlog | ⟨m, -, ht, hr⟩
  · exact ⟨n, (hd.isNodeDone i).mpr ⟨q, hlog, hdone⟩⟩
  · obtain ⟨nd, out, hmoved⟩ := hc.moves ht
    obtain ⟨hs, hself⟩ := hmoved.rcvStep
    refine ⟨m + 1, ?_⟩
    rw [hself, Node.push_isNodeDone]
    exact (hs.isNodeDone ((reachable ρ m).inv.nodes 0) i).mpr
      (Or.inr ⟨q, mem_current.mpr hr, hdone⟩)

/-! ### `TeardownMsg`s -/

theorem Sound.exits_of_sent (hc : Sound cfg) (hlt : j < cfg.numNodes) {n : ℕ} {q : Message}
    (hq : q ∈ toNode (sentLog cfg (ρ.schedule n)) j) (hb : q.body = .teardown) :
    ∃ m, ((ρ.state m).nodes j).rcv = .exited := by
  have hd : Down cfg (ρ.schedule n) (ρ.state n) := down_run hc.blocking hc.server (ρ.run n)
  rcases hc.handles_sent hlt hq with hlog | ⟨m, -, ht, hr⟩
  · exact ⟨n, (hd.exited j).mpr ⟨q, hlog, hb⟩⟩
  · obtain ⟨nd, out, hmoved⟩ := hc.moves ht
    obtain ⟨hs, hself⟩ := hmoved.rcvStep
    refine ⟨m + 1, ?_⟩
    rw [hself, Node.push_rcv]
    exact (hs.exited ((reachable ρ m).inv.nodes j)).mpr ⟨q, mem_current.mpr hr, hb⟩

theorem Sound.broadcasts (hc : Sound cfg) (hlt : j < cfg.numNodes) {n : ℕ}
    (hr : ((ρ.state n).nodes 0).rcv = .tearingDown i) (hle : i.toNat ≤ j.toNat) :
    ∃ m, 0 < (toNode (sentLog cfg (ρ.schedule m)) j).countP isTeardown := by
  have h0 : 0 < cfg.numNodes :=
    UInt64.lt_iff_toNat_lt.mpr (Nat.zero_lt_of_lt (UInt64.lt_iff_toNat_lt.mp hlt))
  -- by induction on the nodes that come before `j`
  induction hdist : j.toNat - i.toNat generalizing n i with
  | zero =>
    obtain rfl : i = j := UInt64.toNat_inj.mp (by omega)
    obtain ⟨m, -, ht, hr⟩ := hc.busy_moves h0 hr (by simp) (by simp)
    obtain ⟨nd, out, hmoved⟩ := hc.moves ht
    obtain ⟨hs, -⟩ := hmoved.rcvStep
    refine ⟨m + 1, List.countP_pos_iff.mpr ⟨Message.teardownMsg 0 i, ?_, rfl⟩⟩
    rw [ρ.schedule_succ, ht, Option.toList_some, hmoved.sentLog (ρ.run m), toNode_append]
    refine List.mem_append_right _ (mem_toNode.mpr ⟨?_, rfl⟩)
    cases hs with
    | broadcast i' hr' hi =>
      rw [hr] at hr'
      cases hr'
      rw [((reachable ρ m).inv.nodes 0).storeId]
      exact List.mem_singleton.mpr rfl
    | broadcastEnd i' hr' hi =>
      rw [hr] at hr'
      cases hr'
      exact absurd hlt hi
    | _ => simp_all
  | succ d ih =>
    have hi : i < cfg.numNodes := by
      rw [UInt64.lt_iff_toNat_lt] at hlt ⊢
      omega
    have hsucc : (i + 1).toNat = i.toNat + 1 := by
      have := cfg.numNodes.toNat_lt
      rw [UInt64.lt_iff_toNat_lt] at hi
      rw [UInt64.toNat_add, UInt64.toNat_one, Nat.mod_eq_of_lt (by omega)]
    obtain ⟨m, -, ht, hr⟩ := hc.busy_moves h0 hr (by simp) (by simp)
    obtain ⟨nd, out, hmoved⟩ := hc.moves ht
    obtain ⟨hs, hself⟩ := hmoved.rcvStep
    refine ih (n := m + 1) (i := i + 1) ?_ (by omega) (by omega)
    rw [hself, Node.push_rcv]
    cases hs with
    | broadcast i' hr' hi =>
      rw [hr] at hr'
      cases hr'
      rfl
    | broadcastEnd i' hr' hi' =>
      rw [hr] at hr'
      cases hr'
      exact absurd hi hi'
    | _ => simp_all

theorem Sound.exits (hc : Sound cfg) (hlt : j < cfg.numNodes) {n : ℕ}
    (hall : allDone cfg ((ρ.state n).nodes 0).isNodeDone = true) :
    ∃ m, ((ρ.state m).nodes j).rcv = .exited := by
  obtain ⟨m, hpos⟩ : ∃ m, 0 < (toNode (sentLog cfg (ρ.schedule m)) j).countP isTeardown := by
    have hd : Down cfg (ρ.schedule n) (ρ.state n) := down_run hc.blocking hc.server (ρ.run n)
    by_cases hr : ∃ i, ((ρ.state n).nodes 0).rcv = .tearingDown i ∧ i.toNat ≤ j.toNat
    · obtain ⟨i, hr, hle⟩ := hr
      exact hc.broadcasts hlt hr hle
    · refine ⟨n, ?_⟩
      rw [hd.count, due, if_pos hall]
      split
      · rename_i i hpc
        rw [if_pos]
        · exact Nat.one_pos
        · rw [UInt64.lt_iff_toNat_lt]
          by_contra hge
          exact hr ⟨i, hpc, by omega⟩
      · rw [if_pos hlt]
        exact Nat.one_pos
  obtain ⟨q, hq, ht⟩ := List.countP_pos_iff.mp hpos
  exact hc.exits_of_sent hlt hq (by simpa [isTeardown] using ht)

theorem Sound.joins (hc : Sound cfg) (hlt : j < cfg.numNodes) {n : ℕ}
    (hleft : HasLeft ((ρ.state n).nodes j) = true)
    (hexit : ((ρ.state n).nodes j).rcv = .exited) :
    ∃ m, ((ρ.state m).nodes j).app = .finished := by
  rw [HasLeft] at hleft
  split at hleft
  · rename_i ha
    obtain ⟨m, -, ht, ha, hexit⟩ := ρ.ensures (t := (j, .app))
      (P := fun m => ((ρ.state m).nodes j).app = .joining ∧ ((ρ.state m).nodes j).rcv = .exited)
      ⟨ha, hexit⟩
      (fun m _ h => by
        obtain ⟨ha, hexit⟩ := h
        have ho : nodeStep cfg ((ρ.state m).nodes j) .app =
            some (.ok ({ (ρ.state m).nodes j with app := .finished }, [])) := by
          show appStep cfg _ = _
          simp only [appStep, ha, hexit, if_true]
        exact hc.ready (reachable ρ m) hlt ho)
      (fun m _ h ht =>
        ⟨(hc.app_stays ht).trans h.1, hc.exited_stays (Nat.le_succ m) h.2⟩)
    obtain ⟨nd, out, hmoved⟩ := hc.moves ht
    have hs : AppStep cfg ((ρ.state m).nodes j) nd out := hmoved.node
    refine ⟨m + 1, ?_⟩
    rw [hmoved.self, Node.push_app]
    cases hs with
    | join ha' hr => rfl
    | _ => simp_all
  · rename_i ha
    exact ⟨n, ha⟩
  · cases hleft

/-- **Both threads of every node come to their end**, in every fair run in which every
`run_` returns. -/
theorem shuts_down (hc : Sound cfg) (ρ : Fair cfg)
    (hret : ∀ i, i < cfg.numNodes → ∃ n, HasReturned ((ρ.state n).nodes i) = true) :
    ∃ n, ∀ m, n ≤ m → ∀ i, i < cfg.numNodes →
      ((ρ.state m).nodes i).app = .finished ∧ ((ρ.state m).nodes i).rcv = .exited := by
  have hleft : ∀ i, i < cfg.numNodes → ∃ n, HasLeft ((ρ.state n).nodes i) = true := by
    intro i hi
    obtain ⟨n, hn⟩ := hret i hi
    obtain ⟨m, -, hm⟩ := hc.leaves hi hn
    exact ⟨m, hm⟩
  have hfinish : ∀ i, i < cfg.numNodes → ∃ n, ((ρ.state n).nodes i).app = .finished ∧
      ((ρ.state n).nodes i).rcv = .exited := by
    intro i hi
    have h0 : 0 < cfg.numNodes :=
      UInt64.lt_iff_toNat_lt.mpr (Nat.zero_lt_of_lt (UInt64.lt_iff_toNat_lt.mp hi))
    obtain ⟨n, hall⟩ := Schedule.exists_forall_lt (b := cfg.numNodes)
      (P := fun i n => ((ρ.state n).nodes 0).isNodeDone i = true)
      (fun i n m hle h => hc.done_stays hle h) fun i hi => by
        obtain ⟨n, hn⟩ := hleft i hi
        exact hc.ticks_off h0 hn
    obtain ⟨n₁, hexit⟩ := hc.exits hi (allDone_iff.mpr hall)
    obtain ⟨n₂, hl⟩ := hleft i hi
    have hexit := hc.exited_stays (le_max_left n₁ n₂) hexit
    obtain ⟨n₃, hn₃⟩ := hc.joins hi (hc.left_stays (le_max_right n₁ n₂) hl) hexit
    exact ⟨max (max n₁ n₂) n₃, hc.finished_stays (le_max_right _ _) hn₃,
      hc.exited_stays (le_max_left _ _) hexit⟩
  obtain ⟨n, hn⟩ := Schedule.exists_forall_lt (b := cfg.numNodes)
    (P := fun i n => ((ρ.state n).nodes i).app = .finished ∧ ((ρ.state n).nodes i).rcv = .exited)
    (fun i n m hle h => ⟨hc.finished_stays hle h.1, hc.exited_stays hle h.2⟩) hfinish
  exact ⟨n, fun m hm i hi => ⟨hc.finished_stays hm (hn i hi).1, hc.exited_stays hm (hn i hi).2⟩⟩

/-- The two nodes, from node `0`'s request to the end. -/
theorem shuts_down_pair : ∃ n, ∀ m, n ≤ m → ∀ i, i < pairCfg.numNodes →
    ((pairRun.state m).nodes i).app = .finished ∧ ((pairRun.state m).nodes i).rcv = .exited :=
  shuts_down sound_pairCfg pairRun (of_lt_pairCfg ⟨28, by decide⟩ ⟨28, by decide⟩)

end Pseudo

end Eau2
