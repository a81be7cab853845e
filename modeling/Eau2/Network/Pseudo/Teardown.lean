import Eau2.Network.Pseudo.Order

/-!
# Teardown

The server collects one `DoneMsg` from every node and then sends every node a
`TeardownMsg`; a receiver that handles one stops.  That nothing is lost at the end is
read off the order of messages.

* `teardown_complete`: where a run gets stuck after every `run_` has returned, every
  node has been sent its `TeardownMsg` and has stopped.
* `teardown_clean`: what holds along every run.
-/

namespace Eau2

namespace Pseudo

/-! ### Where a run ends -/

def HasReturned (nd : Node) : Bool :=
  match nd.app with
  | .returned => true
  | .joining => true
  | .finished => true
  | _ => false

theorem hasReturned_of_hasLeft {nd : Node} (h : HasLeft nd = true) : HasReturned nd = true := by
  rw [HasReturned]
  rw [HasLeft] at h
  split at h
  · rename_i ha
    rw [ha]
  · rename_i ha
    rw [ha]
  · cases h

def Stuck (cfg : Config) (st : Cluster) : Prop := ∀ t, step cfg st t = none

theorem Stuck.nodeStep {cfg : Config} {st : Cluster} (h : Stuck cfg st) (hf : st.fault = none)
    {i : SizeT} (hi : i < cfg.numNodes) (r : Role) : nodeStep cfg (st.nodes i) r = none := by
  have := h (i, r)
  rw [step, if_pos ⟨hf, hi⟩] at this
  split at this
  · assumption
  · cases this
  · cases this

theorem rcvStep_eq_none {cfg : Config} {nd : Node} (hl : nd.lockHeld = false)
    (h : Pseudo.rcvStep cfg nd = none) : nd.rcv = .receiving ∧ nd.queue = [] ∨ nd.rcv = .exited := by
  rw [Pseudo.rcvStep] at h
  split at h
  · rename_i hpc
    split at h
    · exact Or.inl ⟨hpc, by assumption⟩
    · cases h
  · rw [handle] at h
    split at h
    case h_3 => simp [hl] at h
    all_goals first
      | cases h
      | (split at h <;> cases h)
  · cases h
  · simp [hl] at h
  · simp [hl] at h
  · split at h <;> cases h
  · exact Or.inr (by assumption)

theorem appStep_eq_none {cfg : Config} {nd : Node} (hret : HasReturned nd = true)
    (h : appStep cfg nd = none) : HasLeft nd = true ∧ (nd.rcv = .exited → nd.app = .finished) := by
  rw [HasReturned] at hret
  split at hret
  · rename_i ha
    rw [appStep, ha] at h
    cases h
  · rename_i ha
    rw [appStep, ha] at h
    refine ⟨by rw [HasLeft, ha], fun hx => ?_⟩
    rw [if_pos hx] at h
    cases h
  · rename_i ha
    exact ⟨by rw [HasLeft, ha], fun _ => ha⟩
  · cases hret

/-- **Where nothing can move, every node has been sent its `TeardownMsg` and has
stopped.** -/
theorem teardown_complete {cfg : Config} {ts : List ThreadId} {st : Cluster}
    (h : Down cfg ts st) (hl : NoLockHeld st) (hf : st.fault = none) (hstuck : Stuck cfg st)
    (hret : ∀ i, i < cfg.numNodes → HasReturned (st.nodes i) = true) {j : SizeT}
    (hj : j < cfg.numNodes) : (toNode (sentLog cfg ts) j).countP isTeardown = 1 ∧
      (st.nodes j).rcv = .exited ∧ (st.nodes j).app = .finished := by
  have happ : ∀ i, i < cfg.numNodes → HasLeft (st.nodes i) = true ∧
      ((st.nodes i).rcv = .exited → (st.nodes i).app = .finished) := fun i hi =>
    appStep_eq_none (hret i hi) (hstuck.nodeStep hf hi .app)
  have hrcv : ∀ i, i < cfg.numNodes → (st.nodes i).rcv = .receiving ∧ (st.nodes i).queue = [] ∨
      (st.nodes i).rcv = .exited := fun i hi =>
    rcvStep_eq_none (hl i) (hstuck.nodeStep hf hi .rcv)
  have h0 : 0 < cfg.numNodes := by
    rw [UInt64.lt_iff_toNat_lt] at hj ⊢
    exact Nat.zero_lt_of_lt hj
  -- the server is behind its broadcast
  have hpc : ∀ i, (st.nodes 0).rcv ≠ .tearingDown i := by
    intro i hi
    rcases hrcv 0 h0 with ⟨hr, -⟩ | hr
    · rw [hr] at hi
      cases hi
    · rw [hr] at hi
      cases hi
  -- it has handled every `DoneMsg`, unless it has stopped on a `TeardownMsg` of its own
  have hall : allDone cfg (st.nodes 0).isNodeDone = true := by
    rcases hrcv 0 h0 with ⟨hr, hq⟩ | hr
    · refine allDone_iff.mpr fun i hi => (h.isNodeDone i).mpr ?_
      have hpos : 0 < (sentLog cfg ts).countP (isDone i) := by
        rw [h.sentDone, if_pos (happ i hi).1]
        exact Nat.one_pos
      obtain ⟨m, hm, hd⟩ := List.countP_pos_iff.mp hpos
      simp only [isDone, Bool.and_eq_true, decide_eq_true_eq] at hd
      have hto : m ∈ toNode (sentLog cfg ts) 0 := mem_toNode.mpr ⟨hm, h.doneTo m hm hd.1⟩
      rw [h.fifo, inbox, current, hr, hq, List.append_nil, List.append_nil] at hto
      exact ⟨m, hto, hd⟩
    · obtain ⟨m, hm, hb⟩ := (h.exited 0).mp hr
      have hpos : 0 < due cfg (st.nodes 0) 0 := by
        rw [← h.count, h.fifo]
        exact List.countP_pos_iff.mpr
          ⟨m, List.mem_append_left _ hm, by simp [isTeardown, hb]⟩
      rw [due] at hpos
      split at hpos
      · assumption
      · cases hpos
  have hcount : (toNode (sentLog cfg ts) j).countP isTeardown = 1 := by
    rw [h.count, due_of_ne _ hpc, if_pos hall, if_pos hj]
  have hexit : (st.nodes j).rcv = .exited := by
    rcases hrcv j hj with ⟨hr, hq⟩ | hr
    · refine (h.exited j).mpr ?_
      have hpos : 0 < (toNode (sentLog cfg ts) j).countP isTeardown := by
        rw [hcount]
        exact Nat.one_pos
      rw [h.fifo, inbox, current, hr, hq, List.append_nil, List.append_nil] at hpos
      obtain ⟨m, hm, ht⟩ := List.countP_pos_iff.mp hpos
      exact ⟨m, hm, by simpa [isTeardown] using ht⟩
    · exact hr
  exact ⟨hcount, hexit, (happ j hj).2 hexit⟩

/-- A step of node `j`'s receiver inserted `v` under `k`. -/
def Applied (cfg : Config) (ts : List ThreadId) (j : SizeT) (k : Key) (v : Value) : Prop :=
  ∃ ts₁ st₁ st₂, ts₁ ++ [(j, .rcv)] <+: ts ∧ run cfg ts₁ = some st₁ ∧
    run cfg (ts₁ ++ [(j, .rcv)]) = some st₂ ∧
    (st₂.nodes j).kv = (st₁.nodes j).kv.insert k v

theorem applied_of_handled {cfg : Config} {ts : List ThreadId} {st : Cluster}
    (h : run cfg ts = some st) {j : SizeT} {m : Message} (hm : m ∈ handledLog cfg j ts) {k : Key}
    {v : Value} (hb : m.body = .put k v) : Applied cfg ts j k v := by
  obtain ⟨ts₁, t, st₁, hpre, hr, hobs⟩ := Schedule.mem_trace hm
  rw [handled] at hobs
  split at hobs
  · rename_i ht
    subst ht
    split at hobs
    · rename_i out hok
      obtain ⟨us, rfl⟩ := hpre
      obtain ⟨st₂, hr₂, -⟩ := Schedule.run_prefix h
      refine ⟨ts₁, st₁, st₂, ⟨us, rfl⟩, hr, hr₂, ?_⟩
      obtain ⟨st₁', hr', hs⟩ := Schedule.run_snoc.mp hr₂
      rw [hr] at hr'
      cases hr'
      rcases step_cases hs with ⟨nd, out, hmv⟩ | ⟨f, he, -⟩
      · obtain ⟨hrcv, hself⟩ := hmv.rcvStep
        rw [hself, Node.push_kv]
        have hi : Inv cfg st₁ := Reachable.inv ⟨ts₁, hr⟩
        exact hrcv.of_put (hi.nodes j) (mem_current.mp hobs) hb
      · have hok' : nodeStep cfg (st₁.nodes j) .rcv = some (.ok out) := hok
        rw [hok'] at he
        cases he
    · cases hobs
  · cases hobs

/-- **Teardown is clean.** A `TeardownMsg` is sent only when every `run_` has
returned, and to no node twice; where every `run_` has returned and nothing can move
any more, every node has been sent one and has stopped.  Nothing is pushed behind a
`TeardownMsg`; and a node that has stopped has an empty queue, and every `PutMsg`
sent to it was inserted by its receiver, in the order of sending. -/
theorem teardown_clean (cfg : Config) (hp : ¬ Polls cfg) (h0 : cfg.serverIndex = 0)
    (ts : List ThreadId) (st : Cluster) (h : run cfg ts = some st) :
    (∀ t m, m ∈ sent cfg st t → m.body = .teardown →
      ∀ i, i < cfg.numNodes → HasReturned (st.nodes i) = true) ∧
    (∀ j, (toNode (sentLog cfg ts) j).countP isTeardown ≤ 1) ∧
    (st.fault = none → Stuck cfg st →
      (∀ i, i < cfg.numNodes → HasReturned (st.nodes i) = true) →
      ∀ j, j < cfg.numNodes → (toNode (sentLog cfg ts) j).countP isTeardown = 1 ∧
        (st.nodes j).rcv = .exited ∧ (st.nodes j).app = .finished) ∧
    (∀ j before m after, toNode (sentLog cfg ts) j = before ++ m :: after →
      m.body = .teardown → after = []) ∧
    ∀ j, (st.nodes j).rcv = .exited → (st.nodes j).queue = [] ∧
      (toNode (sentLog cfg ts) j).filter isPut = (handledLog cfg j ts).filter isPut ∧
      ∀ m k v, m ∈ toNode (sentLog cfg ts) j → m.body = .put k v → Applied cfg ts j k v := by
  have hd := down_run hp h0 h
  have hi : Inv cfg st := Reachable.inv ⟨ts, h⟩
  have hl := hi.noLockHeld hp
  have hbehind : ∀ j before m after, toNode (sentLog cfg ts) j = before ++ m :: after →
      m.body = .teardown → after = [] := by
    intro j before m after he hb
    have hclosed : (toNode (sentLog cfg ts) j).Pairwise _ := hd.closed.filter _
    rw [he, List.pairwise_append] at hclosed
    have hafter := (List.pairwise_cons.mp hclosed.2.1).1
    refine List.eq_nil_iff_forall_not_mem.mpr fun m' hm' => hafter m' hm' hb ?_
    have hto : ∀ x ∈ before ++ m :: after, x.target = j := fun x hx =>
      (mem_toNode.mp (he ▸ hx : x ∈ toNode (sentLog cfg ts) j)).2
    rw [hto m' (List.mem_append_right _ (List.mem_cons_of_mem _ hm')),
      hto m (List.mem_append_right _ List.mem_cons_self)]
  refine ⟨?_, ?_, ?_, hbehind, ?_⟩
  · intro t m hm hb i hlt
    rw [sent] at hm
    split at hm
    · rename_i nd out hok
      obtain ⟨hr, hpc, -⟩ := (nodeStep_cases hok).sends_teardown (hi.nodes t.1) hm hb
      exact hasReturned_of_hasLeft (hd.allLeft (hd.tearing t.1 _ hpc).2.1 hlt)
    · cases hm
  · intro j
    rw [hd.count, due]
    split
    · split <;> split <;> omega
    · omega
  · exact fun hf hstuck hret j hj => teardown_complete hd hl hf hstuck hret hj
  · intro j hx
    obtain ⟨m, hm, hb⟩ := (hd.exited j).mp hx
    obtain ⟨before, after, hsplit⟩ := List.append_of_mem hm
    have hfifo := hd.fifo j
    -- what is behind the `TeardownMsg` in the log is empty, so is the inbox
    have hnil : inbox (st.nodes j) = [] := by
      rw [hsplit, List.append_assoc, List.cons_append] at hfifo
      exact (List.append_eq_nil_iff.mp (hbehind j _ _ _ hfifo hb)).2
    rw [hnil, List.append_nil] at hfifo
    refine ⟨(List.append_eq_nil_iff.mp hnil).2, by rw [hfifo], ?_⟩
    intro m' k v hm' hput
    exact applied_of_handled h (hfifo ▸ hm') hput

/-- Both nodes leave, and the server tears them down. -/
def partingSchedule : List ThreadId :=
  [(0, .app), (0, .app), (1, .app), (1, .app), (0, .rcv), (0, .rcv), (0, .rcv), (0, .rcv),
    (0, .rcv), (0, .rcv), (0, .rcv), (0, .rcv), (0, .rcv), (0, .app), (1, .rcv), (1, .rcv),
    (1, .app)]

def partedCluster : Cluster := (run pairCfg (pairSchedule ++ partingSchedule)).get (by decide)

theorem of_lt_pairCfg {P : SizeT → Prop} (h0 : P 0) (h1 : P 1) (i : SizeT)
    (hi : i < pairCfg.numNodes) : P i := by
  have hlt : i.toNat < 2 := UInt64.lt_iff_toNat_lt.mp hi
  have hi : i = 0 ∨ i = 1 := by
    rw [← UInt64.toNat_inj, ← UInt64.toNat_inj]
    change i.toNat = 0 ∨ i.toNat = 1
    omega
  rcases hi with rfl | rfl
  · exact h0
  · exact h1

theorem stuck_partedCluster : Stuck pairCfg partedCluster := by
  have hnone : ∀ i, i < pairCfg.numNodes →
      ∀ r, nodeStep pairCfg (partedCluster.nodes i) r = none :=
    of_lt_pairCfg (fun r => by cases r <;> rfl) (fun r => by cases r <;> rfl)
  intro t
  rw [step]
  split
  · rename_i hc
    rw [hnone t.1 hc.2]
  · rfl

/-- The whole run of the two nodes. -/
theorem teardown_clean_pair :
    (toNode (sentLog pairCfg (pairSchedule ++ partingSchedule)) 1).countP isTeardown = 1 ∧
      (partedCluster.nodes 1).queue = [] := by
  obtain ⟨-, -, hend, -, hexit⟩ := teardown_clean pairCfg not_polls_pairCfg rfl
    (pairSchedule ++ partingSchedule) partedCluster (Option.some_get _).symm
  have h1 := hend rfl stuck_partedCluster (of_lt_pairCfg rfl rfl) 1 (by decide)
  exact ⟨h1.1, (hexit 1 h1.2.1).1⟩

end Pseudo

end Eau2
