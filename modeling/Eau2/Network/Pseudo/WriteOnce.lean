import Eau2.Base.Program
import Eau2.Network.Pseudo.Provenance
import Eau2.Network.Pseudo.Teardown

/-!
# Programs that write each key once

`σ k` is the value that is put under `k`, by whichever node and whenever.  What a call
returns then does not depend on how the threads are interleaved (`reply`): a `put`
returns nothing, a blocking `getValue(k)` returns `σ k` or waits, and a `get` of a
node's own key returns `σ k` behind the put of that key.

* `WriteOnce`: what the programs keep to; it speaks of the programs alone.
* `Told`, `told_run`: the invariant of all runs.
* `schedule_independent`: two runs see the same, as far as both have come.
-/

namespace Eau2

namespace Pseudo

open KVStore (Drained Taken)

/-- What a call returns where it returns. -/
def reply (σ : Key → Option Value) : Op → Option (Option Value)
  | .put _ _ => some none
  | .getValue k _ => (σ k).map some

/-- **Each key is written with one value**, and a `get` reads a key of its own node that
the node has put before. -/
structure WriteOnce (cfg : Config) (σ : Key → Option Value) : Prop where
  puts : ∀ i, i < cfg.numNodes → ∀ rs k v, Follows (reply σ) (cfg.program i) rs →
    cfg.program i rs = some (.put k v) → σ k = some v
  gets : ∀ i, i < cfg.numNodes → ∀ rs k, Follows (reply σ) (cfg.program i) rs →
    cfg.program i rs = some (.getValue k false) →
    k.homeNode = i ∧ ∃ rs' v, rs' <+: rs ∧ cfg.program i rs' = some (.put k v)

def Pending (cfg : Config) (i : SizeT) (nd : Node) : Prop :=
  match nd.app with
  | .running => True
  | .calling op => cfg.program i nd.results = some op
  | .draining k => ∃ v, cfg.program i nd.results = some (.put k v)
  | .awaiting k b => cfg.program i nd.results = some (.getValue k b)
  | .returned => cfg.program i nd.results = none
  | .joining => cfg.program i nd.results = none
  | .finished => cfg.program i nd.results = none

def Tells (σ : Key → Option Value) (m : Message) : Prop :=
  ∀ k v, m.body = .put k v ∨ m.body = .replyData k v → σ k = some v

def OwnStored (cfg : Config) (i : SizeT) (nd : Node) : Prop :=
  ∀ rs k v, rs <+: nd.results → rs ≠ nd.results → cfg.program i rs = some (.put k v) →
    k.homeNode = i → (nd.kv.lookup k).isSome

/-- **What a node of a write-once program has seen.** -/
structure ToldNode (cfg : Config) (σ : Key → Option Value) (i : SizeT) (nd : Node) : Prop where
  results : Follows (reply σ) (cfg.program i) nd.results
  pending : Pending cfg i nd
  own : OwnStored cfg i nd
  stored : ∀ s v, nd.kv.kvMap.get s = some v → σ ⟨s, i⟩ = some v

/-- **The invariant.** -/
structure Told (cfg : Config) (σ : Key → Option Value) (st : Cluster) : Prop where
  nodes : ∀ i, ToldNode cfg σ i (st.nodes i)
  mail : ∀ j k m, m ∈ mail (st.nodes j) k → Tells σ m

/-! ### One step -/

section

variable {cfg : Config} {σ : Key → Option Value} {i : SizeT} {nd nd' : Node} {out : List Message}

theorem told_init : Told cfg σ Cluster.init where
  nodes j := by
    refine ⟨.nil, trivial, ?_, ?_⟩
    · rintro rs k v hle hne
      exact absurd (List.prefix_nil.mp hle) hne
    · intro s v hv
      simp [Cluster.init, Node.new, KVStore.new] at hv
  mail j k m hm := by
    simp [Cluster.init, Pseudo.mail, Node.new, RcvPc.message, KVStore.cached, KVStore.new] at hm

theorem ToldNode.lookup (h : ToldNode cfg σ i nd) {k : Key} {v : Value} (hk : k.homeNode = i)
    (hv : nd.kv.lookup k = some v) : σ k = some v := by
  subst hk
  exact h.stored k.kStr v hv

/-- What a node holds of its own keys after a step it should hold. -/
theorem ToldNode.stored_step (h : ToldNode cfg σ i nd) (hw : WriteOnce cfg σ)
    (hi : i < cfg.numNodes) (hok : NodeOk cfg i nd) (hmail : ∀ k m, m ∈ mail nd k → Tells σ m) {r : Role}
    (hs : NodeStep cfg nd r nd' out) (s : CStr) (v : Value)
    (hv : nd'.kv.kvMap.get s = some v) : σ ⟨s, i⟩ = some v := by
  rcases hs.stored_origin hok hv with hv | hst
  · exact h.stored s v hv
  · cases r with
    | app =>
      have hp := h.pending
      replace hst : nd.app = _ := hst
      rw [Pending, hst] at hp
      exact hw.puts i hi _ _ v h.results hp
    | rcv =>
      obtain ⟨m, hrcv, hb⟩ := hst
      refine hmail ⟨s, i⟩ m (mem_mail.mpr (Or.inl (List.mem_append_right _ ?_))) _ v (Or.inl hb)
      rw [hrcv]
      exact List.mem_singleton.mpr rfl

theorem OwnStored.snoc (h : OwnStored cfg i nd) {r : Option Value}
    (hres : nd'.results = nd.results ++ [r])
    (hkeep : ∀ k, (nd.kv.lookup k).isSome → (nd'.kv.lookup k).isSome)
    (hnow : ∀ k v, cfg.program i nd.results = some (.put k v) → k.homeNode = i →
      (nd'.kv.lookup k).isSome) : OwnStored cfg i nd' := by
  intro rs k v hle hne hop hk
  rw [hres] at hle hne
  rcases List.prefix_concat_iff.mp hle with heq | hle
  · exact absurd heq hne
  · by_cases heq : rs = nd.results
    · exact hnow k v (heq ▸ hop) hk
    · exact hkeep k (h rs k v hle heq hop hk)

theorem OwnStored.mono (h : OwnStored cfg i nd) (hres : nd'.results = nd.results)
    (hkeep : ∀ k, (nd.kv.lookup k).isSome → (nd'.kv.lookup k).isSome) : OwnStored cfg i nd' := by
  intro rs k v hle hne hop hk
  rw [hres] at hle hne
  exact hkeep k (h rs k v hle hne hop hk)

/-- **What the application thread does.** -/
theorem ToldNode.appStep (h : ToldNode cfg σ i nd) (hw : WriteOnce cfg σ)
    (hi : i < cfg.numNodes) (hok : NodeOk cfg i nd) (hmail : ∀ k m, m ∈ mail nd k → Tells σ m)
    (hs : AppStep cfg nd nd' out) : ToldNode cfg σ i nd' := by
  have hsid := hok.storeId
  have hpend := h.pending
  have hkeep : ∀ k, (nd.kv.lookup k).isSome → (nd'.kv.lookup k).isSome :=
    fun k => NodeStep.lookup_isSome (r := .app) hs
  have hstored := h.stored_step hw hi hok hmail (r := .app) hs
  -- a call that returns what it should
  have returns : ∀ (op : Op) (r : Option Value), cfg.program i nd.results = some op →
      reply σ op = some r → nd'.results = nd.results ++ [r] → nd'.app = .running →
      (∀ k v, op = .put k v → k.homeNode = i → (nd'.kv.lookup k).isSome) →
      ToldNode cfg σ i nd' := by
    intro op r hop hr hres happ hput
    refine ⟨hres ▸ h.results.snoc hop hr, ?_, h.own.snoc hres hkeep ?_, hstored⟩
    · rw [Pending, happ]
      trivial
    · intro k v hop' hk
      rw [hop] at hop'
      exact hput k v (Option.some.inj hop') hk
  -- a step inside a call
  have inside : nd'.results = nd.results → Pending cfg i nd' → ToldNode cfg σ i nd' :=
    fun hres hp => ⟨hres ▸ h.results, hp, h.own.mono hres hkeep, hstored⟩
  cases hs with
  | call op ha hp => exact inside rfl (hsid ▸ hp)
  | ret ha hp => exact inside rfl (hsid ▸ hp)
  | putRemote k data ha hk ht =>
    rw [Pending, ha] at hpend
    refine returns _ none hpend rfl rfl rfl ?_
    rintro k' v ⟨⟩ hk'
    exact absurd (hk'.trans hsid.symm) hk
  | putLocal k data ha hk =>
    rw [Pending, ha] at hpend
    exact inside rfl ⟨data, hpend⟩
  | drain k kv replies ha hl hd ht =>
    rw [Pending, ha] at hpend
    obtain ⟨v, hop⟩ := hpend
    have happ := hok.app
    rw [ha] at happ
    refine returns _ none hop rfl rfl rfl ?_
    rintro k' v' ⟨⟩ hk'
    exact hkeep k happ.2
  | getLocal k b r ha hk hv hsome =>
    rw [Pending, ha] at hpend
    refine returns _ r hpend ?_ rfl rfl (by rintro k' v' ⟨⟩)
    cases r with
    | some v =>
      rw [reply, h.lookup (hk.trans hsid) hv]
      rfl
    | none =>
      -- a `get` of a key that is not there: but the node has put it
      cases b with
      | true => exact absurd (hsome rfl) (by simp)
      | false =>
        obtain ⟨hki, rs', v, hle, hop⟩ := hw.gets i hi _ k h.results hpend
        have hne : rs' ≠ nd.results := by
          rintro rfl
          rw [hpend] at hop
          cases hop
        have hin := h.own rs' k v hle hne hop hki
        rw [hv] at hin
        cases hin
  | ask k b ha hk ht =>
    rw [Pending, ha] at hpend
    exact inside rfl hpend
  | take k b val kv ha hl ht =>
    rw [Pending, ha] at hpend
    obtain ⟨m, k', hc, hb⟩ := ht.reply
    have hm : m ∈ nd.kv.cached k := by
      rw [hc]
      exact List.mem_singleton.mpr rfl
    have happ := hok.app
    rw [ha] at happ
    obtain ⟨v', hb'⟩ := hok.cached_reply happ.1 hm
    obtain ⟨rfl, rfl⟩ : k' = k ∧ val = v' := by
      rw [hb] at hb'
      cases hb'
      exact ⟨rfl, rfl⟩
    have hv := hmail k' m (mem_mail.mpr (Or.inr hm)) k' val (Or.inr hb)
    refine returns _ (some val) hpend ?_ rfl rfl (by rintro k v ⟨⟩)
    rw [reply, hv]
    rfl
  | giveUp k ha hl hg =>
    -- only a `get` of another node's key gives up
    rw [Pending, ha] at hpend
    have happ := hok.app
    rw [ha] at happ
    exact absurd (hw.gets i hi _ k h.results hpend).1 happ.1
  | done ha ht =>
    rw [Pending, ha] at hpend
    exact inside rfl hpend
  | join ha hx =>
    rw [Pending, ha] at hpend
    exact inside rfl hpend

theorem RcvStep.results (hs : RcvStep cfg nd nd' out) : nd'.results = nd.results := by
  cases hs <;> rfl

theorem ToldNode.rcvStep (h : ToldNode cfg σ i nd) (hw : WriteOnce cfg σ)
    (hi : i < cfg.numNodes) (hok : NodeOk cfg i nd) (hmail : ∀ k m, m ∈ mail nd k → Tells σ m)
    (hs : RcvStep cfg nd nd' out) : ToldNode cfg σ i nd' where
  results := hs.results ▸ h.results
  pending := by
    rw [Pending, hs.app, hs.results]
    exact h.pending
  own := h.own.mono hs.results fun _ => NodeStep.lookup_isSome (r := .rcv) hs
  stored := h.stored_step hw hi hok hmail (r := .rcv) hs

theorem ToldNode.step (h : ToldNode cfg σ i nd) (hw : WriteOnce cfg σ)
    (hi : i < cfg.numNodes) (hok : NodeOk cfg i nd)
    (hmail : ∀ k m, m ∈ Pseudo.mail nd k → Tells σ m) {r : Role}
    (hs : NodeStep cfg nd r nd' out) : ToldNode cfg σ i nd' := by
  cases r with
  | app => exact h.appStep hw hi hok hmail hs
  | rcv => exact h.rcvStep hw hi hok hmail hs

/-- **The messages a step makes carry the values of their keys.** -/
theorem ToldNode.fresh (h : ToldNode cfg σ i nd) (hw : WriteOnce cfg σ) (hi : i < cfg.numNodes)
    {m : Message} (hf : Fresh cfg i nd nd' m) : Tells σ m := by
  intro k v hb
  cases hf with
  | put k' v' ha =>
    have hp := h.pending
    rw [Pending, ha] at hp
    rcases hb with hb | hb <;> cases hb
    exact hw.puts i hi _ k v h.results hp
  | request k' b ha ha' => cases b <;> rcases hb with hb | hb <;> cases hb
  | reply k' q v' hans =>
    rcases hb with hb | hb <;> cases hb
    exact h.lookup hans.home hans.stored
  | done ha => rcases hb with hb | hb <;> cases hb
  | teardown n ha => rcases hb with hb | hb <;> cases hb

end

/-! ### A run -/

variable {cfg : Config} {σ : Key → Option Value}

theorem ToldNode.push {i : SizeT} {nd : Node} (h : ToldNode cfg σ i nd) (ms : List Message) :
    ToldNode cfg σ i (nd.push ms) := ⟨h.results, h.pending, h.own, h.stored⟩

/-- **The invariant survives every step.** -/
theorem Told.step {st st' : Cluster} {t : ThreadId} (h : Told cfg σ st) (hw : WriteOnce cfg σ)
    (hi : Inv cfg st) (hs : step cfg st t = some st') : Told cfg σ st' := by
  rcases step_cases hs with ⟨nd, out, hm⟩ | ⟨f, -, rfl⟩
  · refine ⟨hm.forall h.nodes ?_ fun j nd' hj => hj.push _, fun j k m hmem => ?_⟩
    · exact (h.nodes t.1).step hw hm.lt (hi.nodes t.1) (h.mail t.1) hm.node
    · rcases hm.origin hi hmem with ⟨j', hold⟩ | hf
      · exact h.mail j' k m hold
      · exact (h.nodes t.1).fresh hw hm.lt hf
  · exact ⟨h.nodes, h.mail⟩

theorem told_run (hw : WriteOnce cfg σ) {st : Cluster} (h : Reachable cfg st) :
    Told cfg σ st :=
  (h.induction (P := fun st => Inv cfg st ∧ Told cfg σ st) ⟨inv_init cfg, told_init⟩
    fun _ _ _ hp hs => ⟨hp.1.step hs, hp.2.step hw hp.1 hs⟩).2

theorem Told.program_eq_none {st : Cluster} (h : Told cfg σ st) {i : SizeT}
    (hr : HasReturned (st.nodes i) = true) : cfg.program i (st.nodes i).results = none := by
  have hp := (h.nodes i).pending
  rw [HasReturned] at hr
  rw [Pending] at hp
  split at hp <;> rename_i ha <;> simp only [ha] at hr <;> first | exact hp | cases hr

/-- **What a node sees does not depend on the schedule.** -/
theorem schedule_independent (cfg : Config) (σ : Key → Option Value) (hw : WriteOnce cfg σ)
    (ts ts' : List ThreadId) (st st' : Cluster) (h : run cfg ts = some st)
    (h' : run cfg ts' = some st') (i : SizeT) :
    ((st.nodes i).results <+: (st'.nodes i).results ∨
      (st'.nodes i).results <+: (st.nodes i).results) ∧
    (HasReturned (st.nodes i) = true → (st'.nodes i).results <+: (st.nodes i).results) ∧
    ∀ s v v', (st.nodes i).kv.kvMap.get s = some v → (st'.nodes i).kv.kvMap.get s = some v' →
      v = v' := by
  have ht := told_run hw ⟨ts, h⟩
  have ht' := told_run hw ⟨ts', h'⟩
  refine ⟨(ht.nodes i).results.comparable (ht'.nodes i).results, fun hret => ?_,
    fun s v v' hv hv' => ?_⟩
  · exact (ht.nodes i).results.le_of_ends (ht.program_eq_none hret) (ht'.nodes i).results
  · have hsame := ((ht.nodes i).stored s v hv).symm.trans ((ht'.nodes i).stored s v' hv')
    exact Option.some.inj hsame

def pairValue (k : Key) : Option Value :=
  if k = ⟨⟨[97], CStr.nulFree_a⟩, 1⟩ then some ⟨[7]⟩ else none

/-- Node `1` puts before node `0` asks. -/
def lateSchedule : List ThreadId :=
  [(1, .app), (1, .app), (1, .app), (0, .app), (0, .app), (1, .rcv), (1, .rcv), (1, .rcv),
    (0, .rcv), (0, .rcv), (0, .app), (0, .app)]

theorem writeOnce_pairCfg : WriteOnce pairCfg pairValue where
  puts i _ rs k v _ h := by
    simp only [pairCfg] at h
    split at h
    · split at h <;> cases h
      rfl
    · cases h
  gets i _ rs k _ h := by
    simp only [pairCfg] at h
    split at h
    · split at h <;> cases h
    · cases h

/-- Node `1` puts first, or node `0` asks first. -/
theorem schedule_independent_pair :
    (([some ⟨[7]⟩] : List (Option Value)) <+: [some ⟨[7]⟩] ∨
      ([some ⟨[7]⟩] : List (Option Value)) <+: [some ⟨[7]⟩]) ∧
    (HasReturned (((run pairCfg lateSchedule).get rfl).nodes 0) = true →
      ([some ⟨[7]⟩] : List (Option Value)) <+: [some ⟨[7]⟩]) ∧
    ∀ s v v', (((run pairCfg lateSchedule).get rfl).nodes 0).kv.kvMap.get s = some v →
      (((run pairCfg pairSchedule).get rfl).nodes 0).kv.kvMap.get s = some v' → v = v' :=
  schedule_independent pairCfg pairValue writeOnce_pairCfg lateSchedule pairSchedule
    ((run pairCfg lateSchedule).get rfl) ((run pairCfg pairSchedule).get rfl)
    (Option.some_get _).symm (Option.some_get _).symm 0

end Pseudo

end Eau2
