import Eau2.Network.Pseudo.NodeInv

/-!
# One reply for one request

What the nodes keep together: as long as no lock has been lost, the tokens for
`(i, k)` on the home of `k` and on node `i` are as many as node `i` waits for, so
none or one (`Inv.balance`).  The assertions of the store read this off their own
end: what `getFromNetwork_` finds under its key is one reply, and what
`tryToHandleCache_` finds is waiters.

* `Inv.step`, `Reachable.inv`: the invariant and its run.
* `nodeStep_error`: which assertions a step can still fail.
* `msgCache_discipline`: what `msgCache_` holds in every reachable state.
-/

namespace Eau2

namespace Pseudo

def Homed (cfg : Config) : Prop :=
  ∀ i rs op, cfg.program i rs = some op → op.key.homeNode < cfg.numNodes

def NoLockHeld (st : Cluster) : Prop := ∀ i, (st.nodes i).lockHeld = false

/-- **The invariant of the nodes together.** -/
structure Inv (cfg : Config) (st : Cluster) : Prop where
  nodes : ∀ i, NodeOk cfg i (st.nodes i)
  balance : NoLockHeld st → ∀ i k, k.homeNode ≠ i →
    tokens (st.nodes k.homeNode) i k + tokens (st.nodes i) i k = awaits (st.nodes i) k

theorem inv_init (cfg : Config) : Inv cfg Cluster.init where
  nodes := nodeOk_new cfg
  balance := by
    intro _ i k _
    simp [Cluster.init, tokens, mail, Node.new, RcvPc.message, KVStore.cached, KVStore.new, awaits]

/-! ### One step -/

theorem AppStep.lockHeld {cfg : Config} {nd nd' : Node} {out : List Message}
    (hs : AppStep cfg nd nd' out) (h : nd'.lockHeld = false) : nd.lockHeld = false := by
  cases hs <;> first | exact h | cases h

theorem RcvStep.lockHeld {cfg : Config} {nd nd' : Node} {out : List Message}
    (hs : RcvStep cfg nd nd' out) : nd'.lockHeld = nd.lockHeld := by
  cases hs <;> rfl

theorem NodeStep.lockHeld {cfg : Config} {nd nd' : Node} {r : Role} {out : List Message}
    (hs : NodeStep cfg nd r nd' out) (h : nd'.lockHeld = false) : nd.lockHeld = false := by
  cases r with
  | app => exact AppStep.lockHeld hs h
  | rcv => exact (RcvStep.lockHeld hs).symm.trans h

theorem Moved.lockHeld {cfg : Config} {st st' : Cluster} {t : ThreadId} {nd : Node}
    {out : List Message} (hm : Moved cfg st t nd out st') {j : SizeT}
    (h : (st'.nodes j).lockHeld = false) :
    (st.nodes j).lockHeld = false ∧ (t.1 = j → nd.lockHeld = false) := by
  by_cases hj : j = t.1
  · subst hj
    rw [hm.self, Node.push_lockHeld] at h
    exact ⟨hm.node.lockHeld h, fun _ => h⟩
  · rw [hm.other hj, Node.push_lockHeld] at h
    exact ⟨h, fun he => absurd he.symm hj⟩

theorem Moved.noLockHeld {cfg : Config} {st st' : Cluster} {t : ThreadId} {nd : Node}
    {out : List Message} (hm : Moved cfg st t nd out st') (h : NoLockHeld st') :
    NoLockHeld st := fun j => (hm.lockHeld (h j)).1

theorem NodeOk.push {cfg : Config} {id : SizeT} {nd : Node} (h : NodeOk cfg id nd)
    {out : List Message} (ho : Sends cfg out) : NodeOk cfg id (nd.push (toNode out id)) :=
  { h with
    queue := by
      intro m hm
      rcases List.mem_append.mp hm with hm | hm
      · exact h.queue m hm
      · obtain ⟨hm, ht⟩ := mem_toNode.mp hm
        have := (ho m hm).2
        rwa [ht] at this }

theorem tokens_push (nd : Node) (ms : List Message) (i : SizeT) (k : Key) :
    tokens (nd.push ms) i k = tokens nd i k + ms.countP (isToken i k) := by
  rw [tokens_eq, tokens_eq, Node.push_queue, List.countP_append]
  simp only [Node.push_rcv, Node.push_kv]
  omega

theorem countP_toNode {out : List Message} {p : Message → Bool} {i j : SizeT} (hij : i ≠ j)
    (h : ∀ m ∈ out, p m = true → m.target = i ∨ m.target = j) :
    (toNode out i).countP p + (toNode out j).countP p = out.countP p := by
  induction out with
  | nil => rfl
  | cons m out ih =>
    have ih := ih fun m' hm' => h m' (List.mem_cons_of_mem m hm')
    have hm := h m List.mem_cons_self
    simp only [toNode, List.filter_cons, List.countP_cons] at ih ⊢
    by_cases hp : p m = true
    · rcases hm hp with ht | ht
      · have hnj : ¬ m.target = j := fun e => hij (ht.symm.trans e)
        simp only [ht, hp, hij, decide_true, decide_false, if_true, List.countP_cons]
        simp
        omega
      · have hni : ¬ m.target = i := fun e => hij (e.symm.trans ht)
        simp only [ht, hp, Ne.symm hij, decide_true, decide_false, if_true, List.countP_cons]
        simp
        omega
    · have hz : (if p m = true then 1 else 0) = 0 := if_neg hp
      have hf : ∀ x, (if decide (m.target = x) = true then m :: out.filter (fun m => m.target = x)
          else out.filter fun m => m.target = x).countP p =
            (out.filter fun m => m.target = x).countP p := by
        intro x
        split
        · rw [List.countP_cons, hz, Nat.add_zero]
        · rfl
      rw [hf, hf, hz, Nat.add_zero]
      exact ih

theorem Sends.token_target {cfg : Config} {out : List Message} (h : Sends cfg out) {i : SizeT}
    {k : Key} {m : Message} (hm : m ∈ out) (ht : isToken i k m = true) :
    m.target = k.homeNode ∨ m.target = i := by
  have hacc := (h m hm).2
  rw [isToken] at ht
  split at ht
  · rename_i k' hb
    simp only [Bool.and_eq_true, decide_eq_true_eq] at ht
    exact Or.inl (ht.1 ▸ (hacc.getData k' hb).1.symm)
  · rename_i k' hb
    simp only [Bool.and_eq_true, decide_eq_true_eq] at ht
    exact Or.inl (ht.1 ▸ (hacc.waitAndGet k' hb).1.symm)
  · simp only [Bool.and_eq_true, decide_eq_true_eq] at ht
    exact Or.inr ht.2
  · cases ht

/-- **The tokens of a node that has its lock stay balanced in a step.** -/
theorem Moved.balance {cfg : Config} {st st' : Cluster} {t : ThreadId} {nd : Node}
    {out : List Message} (hm : Moved cfg st t nd out st') (hok : NodeOk cfg t.1 (st.nodes t.1))
    {i : SizeT} {k : Key} (hl : (st'.nodes i).lockHeld = false) (hk : k.homeNode ≠ i)
    (hbal : tokens (st.nodes k.homeNode) i k + tokens (st.nodes i) i k = awaits (st.nodes i) k) :
    tokens (st'.nodes k.homeNode) i k + tokens (st'.nodes i) i k = awaits (st'.nodes i) k := by
  have hsend := (hm.node.nodeOk hm.lt hok).2
  have hnode := hm.node.tokens hok (hm.lockHeld hl).2 k
  have hsplit := countP_toNode hk fun m hmem ht => hsend.token_target (k := k) hmem ht
  by_cases hj : t.1 = k.homeNode
  · -- the home of the key moves
    have hji : t.1 ≠ i := fun e => hk (hj.symm.trans e)
    have hself := hm.self
    rw [hj] at hself hnode hji
    rw [hself, hm.other (by rw [hj]; exact Ne.symm hji), tokens_push, tokens_push]
    rw [if_neg hji, if_neg hji] at hnode
    show _ = awaits (st.nodes i) k
    omega
  · by_cases hji : t.1 = i
    · -- the node that asks moves
      have hself := hm.self
      rw [hji] at hself hnode
      rw [hself, hm.other (Ne.symm hj), tokens_push, tokens_push]
      rw [if_pos rfl, if_pos rfl] at hnode
      show _ = awaits nd k
      omega
    · -- a third node moves, which holds no token
      have hz := hok.tokens_eq_zero (i := i) hji (Ne.symm hj)
      rw [if_neg hji, if_neg hji] at hnode
      rw [hm.other (Ne.symm hj), hm.other (Ne.symm hji), tokens_push, tokens_push]
      show _ = awaits (st.nodes i) k
      omega

theorem Inv.step {cfg : Config} {st st' : Cluster} {t : ThreadId} (h : Inv cfg st)
    (hs : step cfg st t = some st') : Inv cfg st' := by
  rcases step_cases hs with ⟨nd, out, hm⟩ | ⟨f, -, rfl⟩
  · obtain ⟨hok, hsend⟩ := hm.node.nodeOk hm.lt (h.nodes t.1)
    refine ⟨hm.forall h.nodes hok fun j nd' hj => hj.push hsend, ?_⟩
    intro hl i k hk
    exact hm.balance (h.nodes t.1) (hl i) hk (h.balance (hm.noLockHeld hl) i k hk)
  · exact ⟨h.nodes, h.balance⟩

theorem Reachable.inv {cfg : Config} {st : Cluster} (h : Reachable cfg st) : Inv cfg st :=
  h.induction (inv_init cfg) fun _ _ _ hi hs => hi.step hs

theorem Reachable.balance {cfg : Config} {st : Cluster} (h : Reachable cfg st) {i : SizeT}
    {k : Key} (hl : (st.nodes i).lockHeld = false) (hk : k.homeNode ≠ i) :
    tokens (st.nodes k.homeNode) i k + tokens (st.nodes i) i k = awaits (st.nodes i) k := by
  have key := h.induction
    (P := fun st => Inv cfg st ∧ ((st.nodes i).lockHeld = false →
      tokens (st.nodes k.homeNode) i k + tokens (st.nodes i) i k = awaits (st.nodes i) k))
    ⟨inv_init cfg, fun _ => (inv_init cfg).balance (fun _ => rfl) i k hk⟩ (by
      intro st t st' ⟨hi, hbal⟩ hs
      refine ⟨hi.step hs, ?_⟩
      rcases step_cases hs with ⟨nd, out, hm⟩ | ⟨f, -, rfl⟩
      · exact fun hl => hm.balance (hi.nodes t.1) hl hk (hbal (hm.lockHeld hl).1)
      · exact hbal)
  exact key.2 hl

theorem Inv.noLockHeld {cfg : Config} {st : Cluster} (h : Inv cfg st) (hp : ¬ Polls cfg) :
    NoLockHeld st := by
  intro i
  cases hl : (st.nodes i).lockHeld with
  | false => rfl
  | true => exact absurd ((h.nodes i).lock hl) hp

/-! ### What the invariant says about the cache -/

theorem NodeOk.length_le_tokens {cfg : Config} {i : SizeT} {nd : Node} (h : NodeOk cfg i nd)
    {k : Key} (hk : k.homeNode ≠ i) {l : List Message} (hl : nd.kv.msgCache.get k = some l) :
    l.length ≤ tokens nd i k := by
  have hc : nd.kv.cached k = l := by rw [KVStore.cached, hl]; rfl
  have hall : l.countP (isToken i k) = l.length := by
    refine List.countP_eq_length.mpr fun m hm => ?_
    obtain ⟨v, hb⟩ := (h.cache k l hl).replies hk m hm
    rw [isToken, hb, ((h.cache k l hl).accepts m hm).target]
    simp
  rw [tokens_eq, hc, hall]
  omega

/-- **Under a key homed elsewhere the cache holds one reply, and the application
waits for it.** -/
theorem Inv.one_reply {cfg : Config} {st : Cluster} (h : Inv cfg st) (hl : NoLockHeld st)
    {i : SizeT} {k : Key} (hk : k.homeNode ≠ i) {l : List Message}
    (hg : (st.nodes i).kv.msgCache.get k = some l) :
    (∃ m v, l = [m] ∧ m.body = .replyData k v) ∧ ∃ b, (st.nodes i).app = .awaiting k b := by
  have hcache := (h.nodes i).cache k l hg
  have hlen := (h.nodes i).length_le_tokens hk hg
  have hbal := h.balance hl i k hk
  have hle := awaits_le_one (st.nodes i) k
  have hpos : 0 < l.length := List.length_pos_of_ne_nil hcache.ne_nil
  refine ⟨?_, awaits_pos (by omega)⟩
  obtain ⟨m, rfl⟩ := List.length_eq_one_iff.mp (show l.length = 1 by omega)
  obtain ⟨v, hb⟩ := hcache.replies hk m List.mem_cons_self
  exact ⟨m, v, rfl, hb⟩

/-! ### Which assertions can fail -/

theorem send_error {cfg : Config} {nd : Node} {m : Message} {f : Fault}
    (h : send cfg nd m = .error f) : f = .noQueue ∧ ¬ m.target < cfg.numNodes := by
  rw [send] at h
  split at h
  · cases h
  · cases h
    exact ⟨rfl, by assumption⟩

theorem NodeOk.drain_ok {cfg : Config} {id : SizeT} {nd : Node} (h : NodeOk cfg id nd) {k : Key}
    (hk : k.homeNode = id) (hv : (nd.kv.lookup k).isSome) (nd' : Node) (hnd : nd'.kv = nd.kv) :
    ∃ r, drain cfg nd' k = .ok r := by
  obtain ⟨⟨kv, replies⟩, he⟩ := KVStore.tryToHandleCache_ok
    (fun m hm => ⟨k, h.cached_waiter hk hm⟩) hv
  have ht : ∀ r ∈ replies, r.target < cfg.numNodes := by
    intro r hr
    obtain ⟨val, -, hreplies⟩ := (KVStore.tryToHandleCache_eq_ok he).replies
    rw [hreplies] at hr
    obtain ⟨m, hm, rfl⟩ := List.mem_map.mp hr
    exact ((h.cached_accepts hm).waitAndGet k (h.cached_waiter hk hm)).2.2
  refine ⟨({ nd' with kv := kv }, replies), ?_⟩
  rw [drain, hnd, he]
  exact if_pos ht

/-- Why a step ends the process although the node is sound. -/
def Excused (cfg : Config) (f : Fault) : Prop :=
  (f = .noQueue ∧ (¬ Homed cfg ∨ ¬ cfg.serverIndex < cfg.numNodes)) ∨
    (f = .notServer ∧ cfg.serverIndex ≠ 0)

theorem appStep_error {cfg : Config} {id : SizeT} {nd : Node} (h : NodeOk cfg id nd)
    (hone : ∀ k l, k.homeNode ≠ id → nd.kv.msgCache.get k = some l →
      ∃ m v, l = [m] ∧ m.body = .replyData k v)
    {f : Fault} (hs : appStep cfg nd = some (.error f)) : Excused cfg f := by
  have happ := h.app
  have hsid := h.storeId
  have hhome : ∀ op, nd.app = .calling op → ¬ op.key.homeNode < cfg.numNodes →
      ¬ Homed cfg := by
    intro op ha hlt hh
    rw [ha] at happ
    obtain ⟨rs, hp⟩ := happ
    exact hlt (hh id rs op hp)
  rw [appStep] at hs
  split at hs
  · split at hs <;> cases hs
  · rename_i k data ha
    split at hs
    · obtain ⟨rfl, ht⟩ := send_error (Option.some.inj hs)
      exact Or.inl ⟨rfl, Or.inl (hhome _ ha ht)⟩
    · cases hs
  · rename_i k ha
    rw [ha] at happ
    split at hs
    · cases hs
    · obtain ⟨r, hr⟩ := h.drain_ok happ.1 happ.2 (nd.finish none) rfl
      rw [hr] at hs
      cases hs
  · rename_i k b ha
    rw [getValue] at hs
    split at hs
    · split at hs
      · cases hs
      · split at hs <;> cases hs
    · obtain ⟨rfl, ht⟩ := send_error (Option.some.inj hs)
      rw [request_target] at ht
      exact Or.inl ⟨rfl, Or.inl (hhome _ ha ht)⟩
  · rename_i k b ha
    rw [ha] at happ
    rw [getFromNetwork_] at hs
    split at hs
    · cases hs
    · cases hg : nd.kv.msgCache.get k with
      | none =>
        rw [KVStore.takeReply_eq_none.mpr hg] at hs
        cases b <;> cases hs
      | some l =>
        obtain ⟨m, v, rfl, hb⟩ := hone k l happ.1 hg
        obtain ⟨kv, ht⟩ := KVStore.takeReply_ok hg hb
        rw [ht] at hs
        cases hs
  · obtain ⟨rfl, ht⟩ := send_error (Option.some.inj hs)
    exact Or.inl ⟨rfl, Or.inr ht⟩
  · split at hs <;> cases hs
  · cases hs

theorem handle_error {cfg : Config} {id : SizeT} {nd : Node} (h : NodeOk cfg id nd)
    (hp : ¬ Polls cfg) {m : Message} (hr : nd.rcv = .handling m) {f : Fault}
    (hs : handle cfg nd m = some (.error f)) : f = .notServer ∧ cfg.serverIndex ≠ 0 := by
  have hrcv := h.rcv
  rw [hr] at hrcv
  have hsid := h.storeId
  have hkind := hrcv.kind
  rw [handle] at hs
  cases hb : m.body with
  | getData k => exact absurd (hrcv.getData k hb).2.2.2 hp
  | waitAndGet k =>
    have hk := (hrcv.waitAndGet k hb).1
    rw [hkind, hb] at hs
    simp only [Body.kind, lookupHere, if_pos (hk.trans hsid.symm)] at hs
    cases hv : nd.kv.lookup k <;> rw [hv] at hs <;> cases hs
  | replyData k v =>
    rw [hkind, hb] at hs
    simp only [Body.kind] at hs
    split at hs <;> cases hs
  | put k data =>
    have hk := hrcv.put k data hb
    rw [hkind, hb] at hs
    simp only [Body.kind, if_neg (not_not.mpr (hk.trans hsid.symm))] at hs
    cases hs
  | register info =>
    rw [hkind, hb] at hs
    cases hs
  | dir d =>
    rw [hkind, hb] at hs
    cases hs
  | done =>
    obtain ⟨hserver, hlt⟩ := hrcv.done hb
    rw [hkind, hb] at hs
    have hs : handleDoneMsg cfg nd m = .error f := Option.some.inj hs
    rw [handleDoneMsg] at hs
    split at hs
    · rename_i hz
      cases hs
      rw [hsid, hserver] at hz
      exact ⟨rfl, hz⟩
    · cases hs
  | teardown =>
    rw [hkind, hb] at hs
    cases hs

theorem rcvStep_error {cfg : Config} {id : SizeT} {nd : Node} (h : NodeOk cfg id nd)
    (hp : ¬ Polls cfg) {f : Fault} (hs : rcvStep cfg nd = some (.error f)) :
    f = .notServer ∧ cfg.serverIndex ≠ 0 := by
  have hrcv := h.rcv
  rw [rcvStep] at hs
  split at hs
  · split at hs <;> cases hs
  · rename_i m hr
    exact handle_error h hp hr hs
  · rename_i m hr
    rw [hr] at hrcv
    exact absurd hrcv.1 (send_error (Option.some.inj hs)).2
  · split at hs <;> cases hs
  · rename_i k hr
    rw [hr] at hrcv
    split at hs
    · cases hs
    · obtain ⟨r, hd⟩ := h.drain_ok hrcv.1 hrcv.2 { nd with rcv := .receiving } rfl
      rw [hd] at hs
      cases hs
  · rename_i i hr
    split at hs
    · rename_i hi
      exact absurd hi (send_error (Option.some.inj hs)).2
    · cases hs
  · cases hs

/-- **What can still end the process: a queue that does not exist, or a `DoneMsg`
that reaches another node than `0`.** -/
theorem nodeStep_error {cfg : Config} {st : Cluster} (h : Inv cfg st) (hp : ¬ Polls cfg)
    {t : ThreadId} {f : Fault} (hs : nodeStep cfg (st.nodes t.1) t.2 = some (.error f)) :
    Excused cfg f := by
  have hok := h.nodes t.1
  cases hr : t.2 with
  | app =>
    rw [hr] at hs
    refine appStep_error hok ?_ hs
    intro k l hk hg
    exact (h.one_reply (h.noLockHeld hp) hk hg).1
  | rcv =>
    rw [hr] at hs
    exact Or.inr (rcvStep_error hok hp hs)

/-- Only an excused assertion ever fails. -/
theorem Reachable.excused {cfg : Config} (hp : ¬ Polls cfg) {st : Cluster}
    (h : Reachable cfg st) {f : Fault} (hf : st.fault = some f) : Excused cfg f := by
  have key : Inv cfg st ∧ ∀ f, st.fault = some f → Excused cfg f := by
    refine h.induction (P := fun st => Inv cfg st ∧ ∀ f, st.fault = some f → Excused cfg f)
      ⟨inv_init cfg, by simp [Cluster.init]⟩ ?_
    intro st t st' hst hs
    refine ⟨hst.1.step hs, ?_⟩
    rcases step_cases hs with ⟨nd, out, hm⟩ | ⟨f', he, rfl⟩
    · intro f hf
      rw [hm.fault] at hf
      cases hf
    · intro f hf
      cases hf
      exact nodeStep_error hst.1 hp he
  exact key.2 f hf

theorem Reachable.fault_eq_none {cfg : Config} (hp : ¬ Polls cfg) (hh : Homed cfg)
    (h0 : cfg.serverIndex = 0) {st : Cluster} (h : Reachable cfg st) : st.fault = none := by
  have hlt : ∀ {ts st}, run cfg ts = some st → ts ≠ [] → 0 < cfg.numNodes := by
    intro ts st hts hne
    obtain ⟨t, ts, rfl⟩ := List.exists_cons_of_ne_nil hne
    have hstep : ((step cfg Cluster.init t).bind fun s => Schedule.run (step cfg) s ts) =
      some st := hts
    obtain ⟨st₁, h₁, -⟩ := Option.bind_eq_some_iff.mp hstep
    rw [step] at h₁
    split at h₁
    · rename_i hc
      exact UInt64.lt_iff_toNat_lt.mpr (Nat.zero_lt_of_lt (UInt64.lt_iff_toNat_lt.mp hc.2))
    · cases h₁
  cases hf : st.fault with
  | none => rfl
  | some f =>
    rcases h.excused hp hf with ⟨-, hn | hn⟩ | ⟨-, hn⟩
    · exact absurd hh hn
    · obtain ⟨ts, hts⟩ := h
      have hne : ts ≠ [] := by
        rintro rfl
        cases hts
        cases hf
      exact absurd (h0 ▸ hlt hts hne) hn
    · exact absurd h0 hn

/-- **The two uses of `msgCache_` never meet.** Under a key homed on its node it
holds waiters for that key, and at least one; under any other key it holds one
reply, and the node's application is inside `getFromNetwork_` for it.  So the
assertions of the store never fail: a process only ends on a queue that does not
exist, or on a `DoneMsg` that was sent to another node than `0`. -/
theorem msgCache_discipline (cfg : Config) (hp : ¬ Polls cfg) (st : Cluster)
    (h : Reachable cfg st) :
    (∀ s k l, (st.nodes s).kv.msgCache.get k = some l →
      (k.homeNode = s → l ≠ [] ∧ ∀ m ∈ l, m.body = .waitAndGet k) ∧
      (k.homeNode ≠ s → (∃ m v, l = [m] ∧ m.body = .replyData k v) ∧
        (st.nodes s).app = .awaiting k true)) ∧
    ∀ f, st.fault = some f → Excused cfg f := by
  have hi := h.inv
  refine ⟨?_, fun f hf => h.excused hp hf⟩
  intro s k l hl
  refine ⟨?_, ?_⟩
  · intro hk
    exact ⟨((hi.nodes s).cache k l hl).ne_nil, ((hi.nodes s).cache k l hl).waiters hk⟩
  · intro hk
    obtain ⟨hone, b, ha⟩ := hi.one_reply (hi.noLockHeld hp) hk hl
    refine ⟨hone, ?_⟩
    have happ := (hi.nodes s).app
    rw [ha] at happ
    cases b with
    | true => exact ha
    | false => exact absurd (happ.2 rfl) hp

/-- Node `0` before it takes the reply. -/
theorem msgCache_discipline_pair :
    (∀ s k l, (((run pairCfg (pairSchedule.take 10)).get rfl).nodes s).kv.msgCache.get k = some l →
      (k.homeNode = s → l ≠ [] ∧ ∀ m ∈ l, m.body = .waitAndGet k) ∧
      (k.homeNode ≠ s → (∃ m v, l = [m] ∧ m.body = .replyData k v) ∧
        (((run pairCfg (pairSchedule.take 10)).get rfl).nodes s).app = .awaiting k true)) ∧
    ∀ f, ((run pairCfg (pairSchedule.take 10)).get rfl).fault = some f → Excused pairCfg f :=
  msgCache_discipline pairCfg not_polls_pairCfg _ ⟨pairSchedule.take 10, (Option.some_get _).symm⟩

end Pseudo

end Eau2
