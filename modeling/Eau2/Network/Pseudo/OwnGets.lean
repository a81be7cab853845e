import Eau2.Network.Pseudo.Finish
import Eau2.Network.Pseudo.Orderly

/-!
# Reading what the node itself has put

A write-once program may `get` a key of its own node once it has put it.  Such a `get` is
answered where it is called, so it may as well be a `waitAndGet`: the cluster whose
programs wait instead (`Config.wait`) takes the same steps (`step_wait`).

* `run_wait`, `waitRun`: a run of the one is a run of the other.
* `WriteOnce.no_fault`: **no assertion of a write-once cluster fails.**
* `finishes`: **the cluster ends where the central store ends**, whether its programs wait
  for what is their own or not.
-/

namespace Eau2

namespace Pseudo

def Op.wait : Op → Op
  | .put k data => .put k data
  | .getValue k _ => .getValue k true

def Config.wait (cfg : Config) : Config :=
  { cfg with program := fun i rs => (cfg.program i rs).map Op.wait }

def AppPc.wait : AppPc → AppPc
  | .calling op => .calling op.wait
  | .awaiting k _ => .awaiting k true
  | pc => pc

def Node.wait (nd : Node) : Node := { nd with app := nd.app.wait }

def Cluster.wait (st : Cluster) : Cluster := { st with nodes := fun i => (st.nodes i).wait }

/-- A node that gets only what it has. -/
structure OwnGets (nd : Node) : Prop where
  calling : ∀ k, nd.app = .calling (.getValue k false) →
    k.homeNode = nd.kv.storeId ∧ (nd.kv.lookup k).isSome
  awaiting : ∀ k, nd.app ≠ .awaiting k false

/-! ### One step -/

section

variable {cfg : Config} {nd : Node}

/-- What a step gives, on the node that waits. -/
def Outcome.wait (o : Outcome) : Outcome := o.map fun p => (p.1.wait, p.2)

theorem send_wait (nd : Node) (m : Message) :
    send cfg.wait nd.wait m = Outcome.wait (send cfg nd m) := by
  rw [send, send]
  show (if m.target < cfg.numNodes then _ else _) = _
  split <;> rfl

theorem drain_wait (nd : Node) (k : Key) :
    drain cfg.wait nd.wait k = Outcome.wait (drain cfg nd k) := by
  have hkv : nd.wait.kv.tryToHandleCache_ k = nd.kv.tryToHandleCache_ k := rfl
  rw [drain, drain, hkv]
  cases nd.kv.tryToHandleCache_ k with
  | error f => rfl
  | ok p =>
    show (if ∀ r ∈ p.2, r.target < cfg.numNodes then _ else _) = Outcome.wait (if _ then _ else _)
    split <;> rfl

theorem appStep_wait (h : OwnGets nd) :
    appStep cfg.wait nd.wait = (appStep cfg nd).map Outcome.wait := by
  cases ha : nd.app with
  | running =>
    have ha' : nd.wait.app = .running := congrArg AppPc.wait ha
    have hp : cfg.wait.program nd.wait.kv.storeId nd.wait.results =
        (cfg.program nd.kv.storeId nd.results).map Op.wait := rfl
    rw [appStep, appStep, ha, ha']
    simp only [hp]
    cases cfg.program nd.kv.storeId nd.results <;> rfl
  | calling op =>
    have ha' : nd.wait.app = .calling op.wait := congrArg AppPc.wait ha
    rw [appStep, appStep, ha, ha']
    rcases op with ⟨k, data⟩ | ⟨k, b⟩
    · show (if k.homeNode ≠ nd.kv.storeId then _ else _) = Option.map _ (if _ then _ else _)
      split
      · exact congrArg some (send_wait (nd.finish none) _)
      · rfl
    · show getValue cfg.wait nd.wait k true = (getValue cfg nd k b).map Outcome.wait
      have hkv : nd.wait.kv = nd.kv := rfl
      rw [getValue, getValue, hkv]
      split
      · cases hv : nd.kv.lookup k with
        | some v => rfl
        | none =>
          cases b with
          | true => rfl
          | false =>
            have hsome := (h.calling k ha).2
            rw [hv] at hsome
            cases hsome
      · rename_i hk
        cases b with
        | true => exact congrArg some (send_wait { nd with app := .awaiting k true } _)
        | false => exact absurd (h.calling k ha).1 hk
  | draining k =>
    have ha' : nd.wait.app = .draining k := congrArg AppPc.wait ha
    rw [appStep, appStep, ha, ha']
    show (if nd.lockHeld then _ else _) = Option.map _ (if nd.lockHeld then _ else _)
    split
    · rfl
    · exact congrArg some (drain_wait (nd.finish none) k)
  | awaiting k b =>
    have ha' : nd.wait.app = .awaiting k true := congrArg AppPc.wait ha
    rw [appStep, appStep, ha, ha']
    cases b with
    | false => exact absurd ha (h.awaiting k)
    | true =>
      have hkv : nd.wait.kv = nd.kv := rfl
      have hl : nd.wait.lockHeld = nd.lockHeld := rfl
      show getFromNetwork_ nd.wait k true = (getFromNetwork_ nd k true).map Outcome.wait
      rw [getFromNetwork_, getFromNetwork_, hkv, hl]
      split
      · rfl
      · rcases nd.kv.takeReply k with _ | ⟨_ | _⟩ <;> rfl
  | returned =>
    have ha' : nd.wait.app = .returned := congrArg AppPc.wait ha
    rw [appStep, appStep, ha, ha']
    exact congrArg some (send_wait { nd with app := .joining } _)
  | joining =>
    have ha' : nd.wait.app = .joining := congrArg AppPc.wait ha
    rw [appStep, appStep, ha, ha']
    show (if nd.rcv = .exited then _ else _) = Option.map _ (if nd.rcv = .exited then _ else _)
    split <;> rfl
  | finished =>
    have ha' : nd.wait.app = .finished := congrArg AppPc.wait ha
    rw [appStep, appStep, ha, ha']
    rfl

/-- The receiver does not look at where the application stands. -/
theorem handle_wait (nd : Node) (m : Message) :
    handle cfg.wait nd.wait m = (handle cfg nd m).map Outcome.wait := by
  have hkv : nd.wait.kv = nd.kv := rfl
  have hl : nd.wait.lockHeld = nd.lockHeld := rfl
  have hlook : ∀ k, lookupHere nd.wait k = lookupHere nd k := fun _ => rfl
  have hdone : handleDoneMsg cfg.wait nd.wait m = Outcome.wait (handleDoneMsg cfg nd m) := by
    rw [handleDoneMsg, handleDoneMsg, hkv]
    split
    · rfl
    · show (if ¬ m.sender < cfg.numNodes then _ else _) =
        Outcome.wait (if ¬ m.sender < cfg.numNodes then _ else _)
      split <;> rfl
  unfold handle
  split
  · rename_i k _ _
    rw [hlook]
    rcases lookupHere nd k with _ | (_ | _) <;> rfl
  · rename_i k _ _
    rw [hlook]
    rcases lookupHere nd k with _ | (_ | _) <;> rfl
  · rw [hl]
    split <;> rfl
  · rw [hkv]
    split <;> rfl
  · rfl
  · rfl
  · exact congrArg some hdone
  · rfl
  · rfl

theorem rcvStep_wait (nd : Node) :
    rcvStep cfg.wait nd.wait = (rcvStep cfg nd).map Outcome.wait := by
  have hr : nd.wait.rcv = nd.rcv := rfl
  have hl : nd.wait.lockHeld = nd.lockHeld := rfl
  have hq : nd.wait.queue = nd.queue := rfl
  rw [rcvStep, rcvStep, hr, hl, hq]
  split
  · cases nd.queue <;> rfl
  · exact handle_wait nd _
  · exact congrArg some (send_wait { nd with rcv := .receiving } _)
  · split <;> rfl
  · split
    · rfl
    · exact congrArg some (drain_wait { nd with rcv := .receiving } _)
  · rename_i i _
    show (if i < cfg.numNodes then _ else _) = Option.map _ (if i < cfg.numNodes then _ else _)
    split
    · exact congrArg some (send_wait { nd with rcv := .tearingDown (i + 1) } _)
    · rfl
  · rfl

/-- **A step of the one is a step of the other.** -/
theorem step_wait {st : Cluster} {t : ThreadId} (h : t.1 < cfg.numNodes → OwnGets (st.nodes t.1)) :
    step cfg.wait st.wait t = (step cfg st t).map Cluster.wait := by
  rw [step, step]
  show (if st.fault = none ∧ t.1 < cfg.numNodes then _ else _) = _
  split
  · rename_i hlt
    have hnode : nodeStep cfg.wait (st.wait.nodes t.1) t.2 =
        (nodeStep cfg (st.nodes t.1) t.2).map Outcome.wait := by
      cases t.2 with
      | app => exact appStep_wait (h hlt.2)
      | rcv => exact rcvStep_wait (st.nodes t.1)
    rw [hnode]
    rcases nodeStep cfg (st.nodes t.1) t.2 with _ | (f | ⟨nd, out⟩)
    · rfl
    · rfl
    · refine congrArg some ?_
      show Cluster.mk _ _ = Cluster.mk _ _
      refine congrArg (Cluster.mk · _) (funext fun j => ?_)
      show ({ Function.update st.wait.nodes t.1 nd.wait j with
        queue := (Function.update st.wait.nodes t.1 nd.wait j).queue ++ _ } : Node) =
        ({ Function.update st.nodes t.1 nd j with
          queue := (Function.update st.nodes t.1 nd j).queue ++ _ } : Node).wait
      by_cases hj : j = t.1
      · rw [hj, Function.update_self, Function.update_self]
        rfl
      · rw [Function.update_of_ne hj, Function.update_of_ne hj]
        rfl
  · rfl

end

/-! ### A run -/

section

variable {cfg : Config} {σ : Key → Option Value}

theorem AppPc.wait_eq_draining {pc : AppPc} {k : Key} : pc.wait = .draining k ↔ pc = .draining k := by
  cases pc <;> simp [AppPc.wait]

theorem Told.ownGets {st : Cluster} (h : Told cfg σ st) (hw : WriteOnce cfg σ) (hi : Inv cfg st)
    {i : SizeT} (hlt : i < cfg.numNodes) : OwnGets (st.nodes i) where
  calling k ha := by
    have hpend := (h.nodes i).pending
    rw [Pending, ha] at hpend
    obtain ⟨hk, rs', v, hle, hput⟩ := hw.gets i hlt _ k (h.nodes i).results hpend
    refine ⟨hk.trans (hi.nodes i).storeId.symm, (h.nodes i).own rs' k v hle ?_ hput hk⟩
    intro he
    rw [he, hpend] at hput
    cases hput
  awaiting k ha := by
    have hpend := (h.nodes i).pending
    have happ := (hi.nodes i).app
    rw [Pending, ha] at hpend
    rw [ha] at happ
    exact happ.1 (hw.gets i hlt _ k (h.nodes i).results hpend).1

/-- **The cluster whose programs wait goes in lockstep.** -/
theorem lockstep (hw : WriteOnce cfg σ) : Schedule.Lockstep (step cfg) (step cfg.wait) Cluster.wait
    fun st => Inv cfg st ∧ Told cfg σ st where
  keeps _ _ _ h hs := ⟨h.1.step hs, h.2.step hw h.1 hs⟩
  step_eq _ _ h := step_wait fun hlt => h.2.ownGets hw h.1 hlt

theorem run_wait (hw : WriteOnce cfg σ) (ts : List ThreadId) :
    run cfg.wait ts = (run cfg ts).map Cluster.wait :=
  (lockstep hw).run_eq ⟨inv_init cfg, told_init⟩ ts

def waitRun (hw : WriteOnce cfg σ) (ρ : Fair cfg) : Fair cfg.wait :=
  ρ.map (lockstep hw) ⟨inv_init cfg, told_init⟩

theorem orderly_wait {nd : Node} : Orderly nd.wait .app ↔ Orderly nd .app :=
  forall_congr' fun _ => forall_congr' fun _ => imp_congr Iff.rfl
    (imp_congr AppPc.wait_eq_draining Iff.rfl)

theorem follows_wait {i : SizeT} {rs : List (Option Value)} :
    Follows (reply σ) (cfg.wait.program i) rs ↔ Follows (reply σ) (cfg.program i) rs := by
  have hreply : ∀ op : Op, reply σ op.wait = reply σ op := by
    rintro (_ | _) <;> rfl
  constructor
  · intro h
    induction h with
    | nil => exact .nil
    | snoc _ hop hr ih =>
      obtain ⟨op, hop₀, rfl⟩ := Option.map_eq_some_iff.mp hop
      exact ih.snoc hop₀ (hreply op ▸ hr)
  · intro h
    induction h with
    | nil => exact .nil
    | snoc _ hop hr ih =>
      exact ih.snoc (Option.map_eq_some_iff.mpr ⟨_, hop, rfl⟩) ((hreply _).trans hr)

theorem WriteOnce.wait (hw : WriteOnce cfg σ) : WriteOnce cfg.wait σ where
  puts i hi rs k v hrs hop := by
    obtain ⟨op, hop, hput⟩ := Option.map_eq_some_iff.mp hop
    cases op with
    | put k' v' =>
      cases hput
      exact hw.puts i hi rs k v (follows_wait.mp hrs) hop
    | getValue k' b => cases hput
  gets i hi rs k hrs hop := by
    obtain ⟨op, -, hget⟩ := Option.map_eq_some_iff.mp hop
    cases op <;> cases hget

theorem Central.run_wait (hw : WriteOnce cfg σ) {is : List SizeT} {c : Central}
    (h : Central.run cfg is = some c) : Central.run cfg.wait is = some c := by
  refine Schedule.run_induction (P := fun is c => Central.run cfg.wait is = some c) rfl ?_ h
  intro is c i c' hrun ih hs
  refine Schedule.run_snoc.mpr ⟨c, ih, ?_⟩
  obtain ⟨hi, hstep⟩ := Central.step_cases hs
  have htold := Central.told_run hw hrun
  have hwait : ∀ op, cfg.program i (c.results i) = some op → c.call i op = some c' →
      c.call i op.wait = c.call i op → Central.step cfg.wait c i = some c' := by
    intro op hop hc he
    have hop' : cfg.wait.program i (c.results i) = some op.wait :=
      Option.map_eq_some_iff.mpr ⟨op, hop, rfl⟩
    rw [Central.step, if_pos (show i < cfg.wait.numNodes from hi), hop']
    exact he.trans hc
  cases hstep with
  | put k v hop => exact hwait _ hop rfl rfl
  | get k b v hop hv => exact hwait _ hop (by rw [Central.call, hv]) (by
      rw [Op.wait, Central.call, Central.call, hv])
  | miss k hop hv =>
    have hin := htold.isSome_of_get hw hi hop
    rw [hv] at hin
    cases hin

theorem sound_wait (hh : Homed cfg) (hs : cfg.serverIndex = 0) : Sound cfg.wait where
  blocking := by
    rintro ⟨i, rs, k, hop⟩
    obtain ⟨op, -, hget⟩ := Option.map_eq_some_iff.mp hop
    cases op <;> cases hget
  homed i rs op hop := by
    obtain ⟨op, hop₀, rfl⟩ := Option.map_eq_some_iff.mp hop
    have hlt := hh i rs op hop₀
    cases op <;> exact hlt
  server := hs

/-- **No assertion of a write-once cluster fails.** -/
theorem WriteOnce.no_fault (hw : WriteOnce cfg σ) (hh : Homed cfg) (hs : cfg.serverIndex = 0)
    {ts : List ThreadId} {st : Cluster} (h : run cfg ts = some st) : st.fault = none := by
  have hwait : Reachable cfg.wait st.wait := by
    refine ⟨ts, ?_⟩
    rw [run_wait hw, h]
    rfl
  have hfault : st.wait.fault = none := (sound_wait hh hs).alive hwait
  exact hfault

theorem WriteOnce.exists_orderlyRun (hw : WriteOnce cfg σ) (hh : Homed cfg)
    (hs : cfg.serverIndex = 0) : ∃ ρ : Fair cfg, OrderlyRun ρ := by
  obtain ⟨ρ, ho⟩ := (sound_wait hh hs).exists_orderlyRun
  obtain ⟨ρ', hthread, hstate⟩ := Schedule.FairRun.exists_lift (s := Cluster.init) ρ (lockstep hw)
    ⟨inv_init cfg, told_init⟩
  refine ⟨ρ', fun n j ht => ?_⟩
  rw [hthread] at ht
  have hn := ho n j ht
  rw [← hstate n] at hn
  exact orderly_wait.mp hn

/-- **The cluster ends where the central store ends.** -/
theorem WriteOnce.ends (hw : WriteOnce cfg σ) (hh : Homed cfg) (hs : cfg.serverIndex = 0)
    (ρ : Fair cfg) (ho : OrderlyRun ρ) {is : List SizeT} {c : Central}
    (h : Central.run cfg is = some c)
    (hend : ∀ i, i < cfg.numNodes → cfg.program i (c.results i) = none) :
    ∃ n, ∀ m, n ≤ m →
      (∀ i, i < cfg.numNodes → ((ρ.state m).nodes i).app = .finished ∧
        ((ρ.state m).nodes i).rcv = .exited ∧ ((ρ.state m).nodes i).results = c.results i) ∧
      ∀ k, k.homeNode < cfg.numNodes →
        ((ρ.state m).nodes k.homeNode).kv.lookup k = c.store k := by
  obtain ⟨n, hn⟩ := (sound_wait hh hs).ends hw.wait (waitRun hw ρ)
    (fun n j ht => orderly_wait.mpr (ho n j ht)) (Central.run_wait hw h) fun i hi =>
      Option.map_eq_none_iff.mpr (hend i hi)
  refine ⟨n, fun m hm => ⟨fun i hi => ?_, (hn m hm).2⟩⟩
  obtain ⟨happ, hrcv, hres⟩ := (hn m hm).1 i hi
  refine ⟨?_, hrcv, hres⟩
  replace happ : ((ρ.state m).nodes i).app.wait = .finished := happ
  cases ha : ((ρ.state m).nodes i).app <;> rw [ha] at happ <;> first | rfl | cases happ

end

/-- **Every fair run finishes.** In a fair and orderly run of write-once programs that
finish on the central store: from some moment on both threads of every node have come to
their end, every program has seen what it saw on the central store, and the nodes together
store what the central store holds. -/
theorem finishes (cfg : Config) (σ : Key → Option Value) (hh : Homed cfg)
    (hs : cfg.serverIndex = 0) (hw : WriteOnce cfg σ) (ρ : Fair cfg) (ho : OrderlyRun ρ)
    {is : List SizeT} {c : Central} (h : Central.run cfg is = some c)
    (hend : ∀ i, i < cfg.numNodes → cfg.program i (c.results i) = none) :
    ∃ n, ∀ m, n ≤ m →
      (∀ i, i < cfg.numNodes → ((ρ.state m).nodes i).app = .finished ∧
        ((ρ.state m).nodes i).rcv = .exited ∧ ((ρ.state m).nodes i).results = c.results i) ∧
      ∀ k, k.homeNode < cfg.numNodes →
        ((ρ.state m).nodes k.homeNode).kv.lookup k = c.store k :=
  hw.ends hh hs ρ ho h hend

/-- Node `1` puts, node `0` reads. -/
theorem finishes_pair : ∃ n, ∀ m, n ≤ m →
    (∀ i, i < pairCfg.numNodes → ((pairRun.state m).nodes i).app = .finished ∧
      ((pairRun.state m).nodes i).rcv = .exited ∧ ((pairRun.state m).nodes i).results =
        ((Central.run pairCfg [1, 0]).get (by decide)).results i) ∧
    ∀ k, k.homeNode < pairCfg.numNodes → ((pairRun.state m).nodes k.homeNode).kv.lookup k =
      ((Central.run pairCfg [1, 0]).get (by decide)).store k :=
  finishes pairCfg pairValue sound_pairCfg.homed rfl writeOnce_pairCfg pairRun orderlyRun_pairRun
    (Option.some_get _).symm (of_lt_pairCfg rfl rfl)

end Pseudo

end Eau2
