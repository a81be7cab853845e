import Eau2.Network.Pseudo.Cluster

/-!
# What one node keeps

The part of the protocol that a node can answer for alone: every message in its
queue is one it may handle (`Accepts`), every thread stands where its program
and its store allow, and under a key `msgCache_` holds waiters if the key is
homed here and replies if it is homed elsewhere (`NodeOk`).

A *token* for `(i, k)` is a request of node `i` for key `k` or a reply to one.
`mail nd k` is where tokens for `k` can lie on a node, and `awaits nd k` counts
the request the node's application is waiting for.

* `AppStep.nodeOk`, `RcvStep.nodeOk`: a step keeps its own node sound and sends
  only what its target accepts.
* `AppStep.tokens`, `RcvStep.tokens`: a step neither loses nor makes a token,
  except that the application puts one out when it begins to wait and takes one
  in when it ends.
-/

namespace Eau2

namespace Pseudo

open KVStore (Drained Taken)

def Polls (cfg : Config) : Prop := ∃ i rs k, cfg.program i rs = some (.getValue k false)

/-- What a message must be to lie in the queue of node `id`. -/
structure Accepts (cfg : Config) (id : SizeT) (m : Message) : Prop where
  kind : m.kind = m.body.kind
  target : m.target = id
  getData : ∀ k, m.body = .getData k →
    k.homeNode = id ∧ m.sender ≠ id ∧ m.sender < cfg.numNodes ∧ Polls cfg
  waitAndGet : ∀ k, m.body = .waitAndGet k →
    k.homeNode = id ∧ m.sender ≠ id ∧ m.sender < cfg.numNodes
  replyData : ∀ k v, m.body = .replyData k v → k.homeNode ≠ id
  put : ∀ k v, m.body = .put k v → k.homeNode = id
  done : m.body = .done → id = cfg.serverIndex ∧ m.sender < cfg.numNodes

/-- What the receiver thread may stand at on node `id`. -/
def RcvOk (cfg : Config) (id : SizeT) (kv : KVStore) : RcvPc → Prop
  | .handling m => Accepts cfg id m
  | .replying m => m.target < cfg.numNodes ∧ m.target ≠ id ∧
      ∃ k v, m = Message.replyDataMsg k v id m.target ∧ k.homeNode = id
  | .parking k m => Accepts cfg id m ∧ m.body = .waitAndGet k
  | .draining k => k.homeNode = id ∧ (kv.lookup k).isSome
  | _ => True

/-- What the application thread may stand at on node `id`. -/
def AppOk (cfg : Config) (id : SizeT) (kv : KVStore) : AppPc → Prop
  | .calling op => ∃ rs, cfg.program id rs = some op
  | .draining k => k.homeNode = id ∧ (kv.lookup k).isSome
  | .awaiting k b => k.homeNode ≠ id ∧ (b = false → Polls cfg)
  | _ => True

/-- What `msgCache_` of node `id` may hold under `k`. -/
structure CacheOk (cfg : Config) (id : SizeT) (k : Key) (l : List Message) : Prop where
  ne_nil : l ≠ []
  accepts : ∀ m ∈ l, Accepts cfg id m
  waiters : k.homeNode = id → ∀ m ∈ l, m.body = .waitAndGet k
  replies : k.homeNode ≠ id → ∀ m ∈ l, ∃ v, m.body = .replyData k v

/-- **What every node satisfies.** -/
structure NodeOk (cfg : Config) (id : SizeT) (nd : Node) : Prop where
  storeId : nd.kv.storeId = id
  queue : ∀ m ∈ nd.queue, Accepts cfg id m
  rcv : RcvOk cfg id nd.kv nd.rcv
  app : AppOk cfg id nd.kv nd.app
  cache : ∀ k l, nd.kv.msgCache.get k = some l → CacheOk cfg id k l
  lock : nd.lockHeld = true → Polls cfg

theorem nodeOk_new (cfg : Config) (i : SizeT) : NodeOk cfg i (Node.new i) where
  storeId := rfl
  queue := by simp [Node.new]
  rcv := trivial
  app := trivial
  cache := by simp [Node.new, KVStore.new]
  lock := by simp [Node.new]

theorem not_polls_pairCfg : ¬ Polls pairCfg := by
  rintro ⟨i, rs, k, h⟩
  simp only [pairCfg] at h
  split at h
  · split at h <;> cases h
  · cases h

/-! ### What is sent -/

theorem accepts_putMsg (cfg : Config) (k : Key) (v : Value) (i : SizeT) :
    Accepts cfg k.homeNode (Message.putMsg k v i k.homeNode) where
  kind := rfl
  target := rfl
  getData := by simp [Message.putMsg, Message.ofBody]
  waitAndGet := by simp [Message.putMsg, Message.ofBody]
  replyData := by simp [Message.putMsg, Message.ofBody]
  put := by
    intro k' v' h
    cases h
    rfl
  done := by simp [Message.putMsg, Message.ofBody]

theorem accepts_request {cfg : Config} {k : Key} {b : Bool} {i : SizeT} (hk : k.homeNode ≠ i)
    (hi : i < cfg.numNodes) (hb : b = false → Polls cfg) :
    Accepts cfg k.homeNode (request k b i) where
  kind := by cases b <;> rfl
  target := request_target k b i
  getData := by
    intro k' h
    cases b <;> cases h
    exact ⟨rfl, Ne.symm hk, hi, hb rfl⟩
  waitAndGet := by
    intro k' h
    cases b <;> cases h
    exact ⟨rfl, Ne.symm hk, hi⟩
  replyData := by
    intro k' v' h
    cases b <;> cases h
  put := by
    intro k' v' h
    cases b <;> cases h
  done := by
    intro h
    cases b <;> cases h

theorem accepts_replyDataMsg (cfg : Config) {k : Key} (v : Value) {i j : SizeT}
    (hk : k.homeNode ≠ j) : Accepts cfg j (Message.replyDataMsg k v i j) where
  kind := rfl
  target := rfl
  getData := by simp [Message.replyDataMsg, Message.ofBody]
  waitAndGet := by simp [Message.replyDataMsg, Message.ofBody]
  replyData := by
    intro k' v' h
    cases h
    exact hk
  put := by simp [Message.replyDataMsg, Message.ofBody]
  done := by simp [Message.replyDataMsg, Message.ofBody]

theorem accepts_doneMsg {cfg : Config} {i : SizeT} (hi : i < cfg.numNodes) :
    Accepts cfg cfg.serverIndex (Message.doneMsg i cfg.serverIndex) where
  kind := rfl
  target := rfl
  getData := by simp [Message.doneMsg, Message.ofBody]
  waitAndGet := by simp [Message.doneMsg, Message.ofBody]
  replyData := by simp [Message.doneMsg, Message.ofBody]
  put := by simp [Message.doneMsg, Message.ofBody]
  done := fun _ => ⟨rfl, hi⟩

theorem accepts_teardownMsg (cfg : Config) (i j : SizeT) :
    Accepts cfg j (Message.teardownMsg i j) where
  kind := rfl
  target := rfl
  getData := by simp [Message.teardownMsg, Message.ofBody]
  waitAndGet := by simp [Message.teardownMsg, Message.ofBody]
  replyData := by simp [Message.teardownMsg, Message.ofBody]
  put := by simp [Message.teardownMsg, Message.ofBody]
  done := by simp [Message.teardownMsg, Message.ofBody]

def Sends (cfg : Config) (out : List Message) : Prop :=
  ∀ m ∈ out, m.target < cfg.numNodes ∧ Accepts cfg m.target m

/-! ### Small facts about the parts of a node -/

/-- A store in which nothing that was stored has gone keeps the threads' positions
sound. -/
theorem RcvOk.mono {cfg : Config} {id : SizeT} {kv kv' : KVStore} {pc : RcvPc}
    (h : RcvOk cfg id kv pc) (hkv : ∀ k, (kv.lookup k).isSome → (kv'.lookup k).isSome) :
    RcvOk cfg id kv' pc := by
  cases pc with
  | draining k => exact ⟨h.1, hkv k h.2⟩
  | _ => exact h

theorem AppOk.mono {cfg : Config} {id : SizeT} {kv kv' : KVStore} {pc : AppPc}
    (h : AppOk cfg id kv pc) (hkv : ∀ k, (kv.lookup k).isSome → (kv'.lookup k).isSome) :
    AppOk cfg id kv' pc := by
  cases pc with
  | draining k => exact ⟨h.1, hkv k h.2⟩
  | _ => exact h

theorem isSome_lookup_insert (kv : KVStore) (k : Key) (v : Value) (k' : Key)
    (h : (kv.lookup k').isSome) : ((kv.insert k v).lookup k').isSome := by
  rw [KVStore.lookup_insert]
  split
  · rfl
  · exact h

theorem isSome_lookup_insert_self (kv : KVStore) (k : Key) (v : Value) :
    ((kv.insert k v).lookup k).isSome := by
  rw [KVStore.lookup_insert, if_pos rfl]
  rfl

theorem isSome_lookup_of_kvMap {kv kv' : KVStore} (e : kv'.kvMap = kv.kvMap) (k : Key)
    (h : (kv.lookup k).isSome) : (kv'.lookup k).isSome := by
  rwa [KVStore.lookup, e]

theorem NodeOk.cached {cfg : Config} {id : SizeT} {nd : Node} (h : NodeOk cfg id nd) {k : Key}
    {m : Message} (hm : m ∈ nd.kv.cached k) : ∃ l, CacheOk cfg id k l ∧ m ∈ l := by
  rw [KVStore.cached] at hm
  cases hl : nd.kv.msgCache.get k with
  | none =>
    rw [hl] at hm
    cases hm
  | some l =>
    rw [hl] at hm
    exact ⟨l, h.cache k l hl, hm⟩

theorem NodeOk.cached_accepts {cfg : Config} {id : SizeT} {nd : Node} (h : NodeOk cfg id nd)
    {k : Key} {m : Message} (hm : m ∈ nd.kv.cached k) : Accepts cfg id m := by
  obtain ⟨l, hl, hm⟩ := h.cached hm
  exact hl.accepts m hm

theorem NodeOk.cached_waiter {cfg : Config} {id : SizeT} {nd : Node} (h : NodeOk cfg id nd)
    {k : Key} (hk : k.homeNode = id) {m : Message} (hm : m ∈ nd.kv.cached k) :
    m.body = .waitAndGet k := by
  obtain ⟨l, hl, hm⟩ := h.cached hm
  exact hl.waiters hk m hm

theorem NodeOk.cached_reply {cfg : Config} {id : SizeT} {nd : Node} (h : NodeOk cfg id nd)
    {k : Key} (hk : k.homeNode ≠ id) {m : Message} (hm : m ∈ nd.kv.cached k) :
    ∃ v, m.body = .replyData k v := by
  obtain ⟨l, hl, hm⟩ := h.cached hm
  exact hl.replies hk m hm

theorem NodeOk.cache_erase {cfg : Config} {id : SizeT} {nd : Node} (h : NodeOk cfg id nd)
    {kv : KVStore} {k : Key}
    (e : ∀ k', kv.msgCache.get k' = if k = k' then none else nd.kv.msgCache.get k') :
    ∀ k' l, kv.msgCache.get k' = some l → CacheOk cfg id k' l := by
  intro k' l hl
  rw [e] at hl
  split at hl
  · cases hl
  · exact h.cache k' l hl

theorem NodeOk.cache_add {cfg : Config} {id : SizeT} {nd : Node} (h : NodeOk cfg id nd)
    {k : Key} {m : Message} (hm : Accepts cfg id m)
    (hw : k.homeNode = id → m.body = .waitAndGet k)
    (hr : k.homeNode ≠ id → ∃ v, m.body = .replyData k v) :
    ∀ k' l, (nd.kv.addToCache_ k m).msgCache.get k' = some l → CacheOk cfg id k' l := by
  intro k' l hl
  rw [KVStore.msgCache_addToCache] at hl
  split at hl
  · rename_i hk
    subst hk
    cases hl
    refine ⟨by simp, ?_, ?_, ?_⟩
    · intro m' hm'
      rcases List.mem_append.mp hm' with hm' | hm'
      · exact h.cached_accepts hm'
      · rw [List.mem_singleton.mp hm']
        exact hm
    · intro hk m' hm'
      rcases List.mem_append.mp hm' with hm' | hm'
      · exact h.cached_waiter hk hm'
      · rw [List.mem_singleton.mp hm']
        exact hw hk
    · intro hk m' hm'
      rcases List.mem_append.mp hm' with hm' | hm'
      · exact h.cached_reply hk hm'
      · rw [List.mem_singleton.mp hm']
        exact hr hk
  · exact h.cache k' l hl

theorem NodeOk.addToCache {cfg : Config} {id : SizeT} {nd : Node} (h : NodeOk cfg id nd)
    {k : Key} {m : Message} (hm : Accepts cfg id m)
    (hw : k.homeNode = id → m.body = .waitAndGet k)
    (hr : k.homeNode ≠ id → ∃ v, m.body = .replyData k v) :
    NodeOk cfg id { nd with kv := nd.kv.addToCache_ k m, rcv := .receiving } :=
  { h with
    storeId := (KVStore.storeId_addToCache _ _ _).trans h.storeId
    rcv := trivial
    app := h.app.mono fun k' hk' => by rwa [KVStore.lookup_addToCache]
    cache := h.cache_add hm hw hr }

/-- A drain of a key homed here sends each waiter a reply it accepts. -/
theorem NodeOk.sends_drain {cfg : Config} {id : SizeT} {nd : Node} (h : NodeOk cfg id nd)
    {kv : KVStore} {k : Key} {replies : List Message} (hk : k.homeNode = id)
    (hd : Drained nd.kv kv k replies) (ht : ∀ r ∈ replies, r.target < cfg.numNodes) :
    Sends cfg replies := by
  intro r hr
  refine ⟨ht r hr, ?_⟩
  obtain ⟨val, -, he⟩ := hd.replies
  rw [he] at hr
  obtain ⟨m, hm, rfl⟩ := List.mem_map.mp hr
  have hs := ((h.cached_accepts hm).waitAndGet k (h.cached_waiter hk hm)).2.1
  refine accepts_replyDataMsg cfg val ?_
  rw [hk]
  exact Ne.symm hs

/-- **A step of the application keeps its node sound and sends only what is
accepted.** -/
theorem AppStep.nodeOk {cfg : Config} {id : SizeT} (hid : id < cfg.numNodes)
    {nd nd' : Node} {out : List Message} (h : NodeOk cfg id nd) (hs : AppStep cfg nd nd' out) :
    NodeOk cfg id nd' ∧ Sends cfg out := by
  have hsid := h.storeId
  have happ := h.app
  cases hs with
  | call op ha hp =>
    rw [hsid] at hp
    exact ⟨{ h with app := ⟨_, hp⟩ }, by simp [Sends]⟩
  | ret ha hp => exact ⟨{ h with app := trivial }, by simp [Sends]⟩
  | putRemote k data ha hk ht =>
    refine ⟨{ h with app := trivial }, ?_⟩
    intro m hm
    rw [List.mem_singleton.mp hm]
    exact ⟨ht, accepts_putMsg cfg k data _⟩
  | putLocal k data ha hk =>
    refine ⟨?_, by simp [Sends]⟩
    exact { h with
      rcv := h.rcv.mono (isSome_lookup_insert nd.kv k data)
      app := ⟨hk.trans hsid, isSome_lookup_insert_self nd.kv k data⟩ }
  | drain k kv replies ha hl hd ht =>
    rw [ha] at happ
    refine ⟨?_, h.sends_drain happ.1 hd ht⟩
    exact { h with
      storeId := hd.storeId.trans hsid
      rcv := h.rcv.mono (isSome_lookup_of_kvMap hd.kvMap)
      app := trivial
      cache := h.cache_erase hd.msgCache }
  | getLocal k b r ha hk hv hr => exact ⟨{ h with app := trivial }, by simp [Sends]⟩
  | ask k b ha hk ht =>
    rw [ha] at happ
    rw [hsid] at hk
    obtain ⟨rs, hp⟩ := happ
    have hb : b = false → Polls cfg := by
      rintro rfl
      exact ⟨id, rs, k, hp⟩
    refine ⟨{ h with app := ⟨hk, hb⟩ }, ?_⟩
    intro m hm
    rw [List.mem_singleton.mp hm, request_target, hsid]
    exact ⟨ht, accepts_request hk hid hb⟩
  | take k b val kv ha hl ht =>
    refine ⟨?_, by simp [Sends]⟩
    exact { h with
      storeId := ht.storeId.trans hsid
      rcv := h.rcv.mono (isSome_lookup_of_kvMap ht.kvMap)
      app := trivial
      cache := h.cache_erase ht.msgCache }
  | giveUp k ha hl hg =>
    rw [ha] at happ
    exact ⟨{ h with app := trivial, lock := fun _ => happ.2 rfl }, by simp [Sends]⟩
  | done ha ht =>
    refine ⟨{ h with app := trivial }, ?_⟩
    intro m hm
    rw [List.mem_singleton.mp hm, hsid]
    exact ⟨ht, accepts_doneMsg hid⟩
  | join ha hr => exact ⟨{ h with app := trivial }, by simp [Sends]⟩

/-- **A step of the receiver keeps its node sound and sends only what is accepted.** -/
theorem RcvStep.nodeOk {cfg : Config} {id : SizeT} {nd nd' : Node} {out : List Message}
    (h : NodeOk cfg id nd) (hs : RcvStep cfg nd nd' out) : NodeOk cfg id nd' ∧ Sends cfg out := by
  have hsid := h.storeId
  have hrcv := h.rcv
  cases hs with
  | receive m queue hr hq =>
    have hqueue := h.queue
    rw [hq] at hqueue
    refine ⟨?_, by simp [Sends]⟩
    exact { h with
      queue := fun m' hm' => hqueue m' (List.mem_cons_of_mem m hm')
      rcv := hqueue m List.mem_cons_self }
  | serve m k val hr hb hk hv =>
    rw [hr] at hrcv
    rw [hsid] at hk
    have hsend : m.sender ≠ id ∧ m.sender < cfg.numNodes := by
      rcases hb with hb | hb
      · exact ⟨(hrcv.getData k hb).2.1, (hrcv.getData k hb).2.2.1⟩
      · exact (hrcv.waitAndGet k hb).2
    refine ⟨{ h with rcv := ?_ }, by simp [Sends]⟩
    rw [hsid]
    exact ⟨hsend.2, hsend.1, k, val, rfl, hk⟩
  | miss m k hr hb hk hv =>
    rw [hr] at hrcv
    exact ⟨{ h with rcv := ⟨hrcv, hb⟩ }, by simp [Sends]⟩
  | addReply m k val hr hb hl =>
    rw [hr] at hrcv
    have hk := hrcv.replyData k val hb
    refine ⟨?_, by simp [Sends]⟩
    exact h.addToCache hrcv (fun hk' => absurd hk' hk) fun _ => ⟨val, hb⟩
  | put m k data hr hb hk =>
    refine ⟨?_, by simp [Sends]⟩
    exact { h with
      rcv := ⟨hk.trans hsid, isSome_lookup_insert_self nd.kv k data⟩
      app := h.app.mono (isSome_lookup_insert nd.kv k data) }
  | handleDone m hr hb hz hm =>
    refine ⟨{ h with rcv := ?_ }, by simp [Sends]⟩
    show RcvOk cfg id nd.kv (if _ then .tearingDown 0 else .receiving)
    split <;> trivial
  | handleTeardown m hr hk => exact ⟨{ h with rcv := trivial }, by simp [Sends]⟩
  | skip m hr hk => exact ⟨{ h with rcv := trivial }, by simp [Sends]⟩
  | reply m hr ht =>
    rw [hr] at hrcv
    obtain ⟨-, hne, k, v, he, hk⟩ := hrcv
    refine ⟨{ h with rcv := trivial }, ?_⟩
    intro m' hm'
    rw [List.mem_singleton.mp hm']
    refine ⟨ht, ?_⟩
    rw [he]
    exact accepts_replyDataMsg cfg v (by rw [hk]; exact Ne.symm hne)
  | park k m hr hl =>
    rw [hr] at hrcv
    have hk := (hrcv.1.waitAndGet k hrcv.2).1
    refine ⟨?_, by simp [Sends]⟩
    exact h.addToCache hrcv.1 (fun _ => hrcv.2) fun hk' => absurd hk hk'
  | drain k kv replies hr hl hd ht =>
    rw [hr] at hrcv
    refine ⟨?_, h.sends_drain hrcv.1 hd ht⟩
    exact { h with
      storeId := hd.storeId.trans hsid
      rcv := trivial
      app := h.app.mono (isSome_lookup_of_kvMap hd.kvMap)
      cache := h.cache_erase hd.msgCache }
  | broadcast i hr hi =>
    refine ⟨{ h with rcv := trivial }, ?_⟩
    intro m hm
    rw [List.mem_singleton.mp hm]
    exact ⟨hi, accepts_teardownMsg cfg _ i⟩
  | broadcastEnd i hr hi => exact ⟨{ h with rcv := trivial }, by simp [Sends]⟩

theorem NodeStep.nodeOk {cfg : Config} {id : SizeT} (hid : id < cfg.numNodes)
    {nd nd' : Node} {r : Role} {out : List Message} (h : NodeOk cfg id nd)
    (hs : NodeStep cfg nd r nd' out) : NodeOk cfg id nd' ∧ Sends cfg out := by
  cases r with
  | app => exact AppStep.nodeOk hid h hs
  | rcv => exact RcvStep.nodeOk h hs

/-! ### Tokens -/

/-- A request of node `i` for key `k`, or a reply to one. -/
def isToken (i : SizeT) (k : Key) (m : Message) : Bool :=
  match m.body with
  | .getData k' => k' = k && m.sender = i
  | .waitAndGet k' => k' = k && m.sender = i
  | .replyData k' _ => k' = k && m.target = i
  | _ => false

def RcvPc.message : RcvPc → List Message
  | .handling m => [m]
  | .replying m => [m]
  | .parking _ m => [m]
  | _ => []

def mail (nd : Node) (k : Key) : List Message := nd.queue ++ nd.rcv.message ++ nd.kv.cached k

/-- The tokens for `(i, k)` on a node. -/
def tokens (nd : Node) (i : SizeT) (k : Key) : Nat := (mail nd k).countP (isToken i k)

/-- The requests for `k` that the application of a node is waiting for. -/
def awaits (nd : Node) (k : Key) : Nat :=
  match nd.app with
  | .awaiting k' _ => if k' = k then 1 else 0
  | _ => 0

theorem isToken_request (i j : SizeT) (k k' : Key) (b : Bool) :
    isToken i k (request k' b j) = (k' = k && j = i : Bool) := by
  cases b <;> rfl

theorem isToken_replyDataMsg (i j l : SizeT) (k k' : Key) (v : Value) :
    isToken i k (Message.replyDataMsg k' v l j) = (k' = k && j = i : Bool) := rfl

theorem tokens_eq (nd : Node) (i : SizeT) (k : Key) :
    tokens nd i k = nd.queue.countP (isToken i k) + nd.rcv.message.countP (isToken i k) +
      (nd.kv.cached k).countP (isToken i k) := by
  rw [tokens, mail, List.countP_append, List.countP_append]

/-- A drain turns each waiter of its key into one reply and touches no other token. -/
theorem NodeOk.tokens_drain {cfg : Config} {id : SizeT} {nd : Node} (h : NodeOk cfg id nd)
    {kv : KVStore} {k : Key} {replies : List Message} (hk : k.homeNode = id)
    (hd : Drained nd.kv kv k replies) (i : SizeT) (k' : Key) :
    (kv.cached k').countP (isToken i k') + replies.countP (isToken i k') =
      (nd.kv.cached k').countP (isToken i k') := by
  obtain ⟨val, -, he⟩ := hd.replies
  rw [KVStore.cached_of_drained hd]
  by_cases hkk : k = k'
  · subst hkk
    rw [if_pos rfl, List.countP_nil, Nat.zero_add, he, List.countP_map]
    refine List.countP_congr fun m hm => ?_
    rw [Function.comp_apply, isToken_replyDataMsg, isToken, h.cached_waiter hk hm]
  · rw [if_neg hkk, he, List.countP_map]
    have hz : (nd.kv.cached k).countP (isToken i k' ∘
        fun m => Message.replyDataMsg k val nd.kv.storeId m.sender) = 0 := by
      refine List.countP_eq_zero.mpr fun m _ => ?_
      rw [Function.comp_apply, isToken_replyDataMsg]
      simp [hkk]
    rw [hz, Nat.add_zero]

theorem countP_addToCache (kv : KVStore) {k : Key} {m : Message} {i : SizeT}
    {k' : Key} (hm : k ≠ k' → isToken i k' m = false) :
    ((kv.addToCache_ k m).cached k').countP (isToken i k') =
      (kv.cached k').countP (isToken i k') + [m].countP (isToken i k') := by
  rw [KVStore.cached_addToCache]
  by_cases hk : k = k'
  · subst hk
    rw [if_pos rfl, List.countP_append]
  · rw [if_neg hk, List.countP_singleton, hm hk]
    rfl

/-- **The application puts a token out when it begins to wait and takes one in
when it ends; nothing else happens to tokens.** -/
theorem AppStep.tokens {cfg : Config} {id : SizeT} {nd nd' : Node} {out : List Message}
    (h : NodeOk cfg id nd) (hs : AppStep cfg nd nd' out) {i : SizeT}
    (hl : id = i → nd'.lockHeld = false) (k : Key) :
    tokens nd' i k + out.countP (isToken i k) + (if id = i then awaits nd k else 0) =
      tokens nd i k + (if id = i then awaits nd' k else 0) := by
  have hsid := h.storeId
  have happ := h.app
  rw [tokens_eq, tokens_eq]
  cases hs with
  | call op ha hp => simp [awaits, ha]
  | ret ha hp => simp [awaits, ha]
  | putRemote k' data ha hk ht =>
    simp [awaits, ha, Node.finish, isToken, Message.putMsg, Message.ofBody]
  | putLocal k' data ha hk => simp [awaits, ha]
  | drain k' kv replies ha hlock hd ht =>
    rw [ha] at happ
    have := h.tokens_drain happ.1 hd i k
    simp only [awaits, ha, Node.finish]
    omega
  | getLocal k' b r ha hk hv hr => simp [awaits, ha, Node.finish]
  | ask k' b ha hk ht =>
    rw [hsid] at hk
    simp only [awaits, ha, List.countP_singleton, isToken_request, hsid]
    by_cases hi : id = i <;> by_cases hkk : k' = k <;> simp [hi, hkk]
  | take k' b val kv ha hlock ht =>
    rw [ha] at happ
    obtain ⟨m, k₀, hc, hb⟩ := ht.reply
    have hm : m ∈ nd.kv.cached k' := by rw [hc]; exact List.mem_singleton.mpr rfl
    obtain ⟨v, hb'⟩ := h.cached_reply happ.1 hm
    have htarget := (h.cached_accepts hm).target
    rw [KVStore.cached_of_taken ht]
    simp only [awaits, ha, Node.finish]
    by_cases hkk : k' = k
    · subst hkk
      rw [if_pos rfl, hc, List.countP_singleton, isToken, hb', htarget]
      by_cases hi : id = i <;> simp [hi]
    · simp [hkk]
  | giveUp k' ha hlock hg =>
    have hi : ¬ id = i := fun hi => by cases hl hi
    rw [if_neg hi, if_neg hi]
    rfl
  | done ha ht => simp [awaits, ha, isToken, Message.doneMsg, Message.ofBody]
  | join ha hr => simp [awaits, ha]

/-- **The receiver neither loses nor makes a token.** -/
theorem RcvStep.tokens {cfg : Config} {id : SizeT} {nd nd' : Node} {out : List Message}
    (h : NodeOk cfg id nd) (hs : RcvStep cfg nd nd' out) (i : SizeT) (k : Key) :
    tokens nd' i k + out.countP (isToken i k) = tokens nd i k ∧ nd'.app = nd.app := by
  have hrcv := h.rcv
  rw [tokens_eq, tokens_eq]
  cases hs with
  | receive m queue hr hq =>
    refine ⟨?_, rfl⟩
    simp only [hr, hq, RcvPc.message, List.countP_nil, List.countP_cons]
    omega
  | serve m k' val hr hb hk hv =>
    refine ⟨?_, rfl⟩
    have ht : isToken i k m = (k' = k && m.sender = i : Bool) := by
      rw [isToken]
      rcases hb with hb | hb <;> rw [hb]
    have hc : [Message.replyDataMsg k' val nd.kv.storeId m.sender].countP (isToken i k) =
        [m].countP (isToken i k) := by
      rw [List.countP_singleton, List.countP_singleton, ht, isToken_replyDataMsg]
    simp only [hr, RcvPc.message, hc, List.countP_nil, Nat.add_zero]
  | miss m k' hr hb hk hv =>
    refine ⟨?_, rfl⟩
    simp only [hr, RcvPc.message, List.countP_nil, Nat.add_zero]
  | addReply m k' val hr hb hl =>
    refine ⟨?_, rfl⟩
    have hm : k' ≠ k → isToken i k m = false := fun hk => by simp [isToken, hb, hk]
    simp only [hr, RcvPc.message, countP_addToCache nd.kv hm, List.countP_nil]
    omega
  | put m k' data hr hb hk =>
    refine ⟨?_, rfl⟩
    simp [hr, RcvPc.message, isToken, hb]
  | handleDone m hr hb hz hm =>
    refine ⟨?_, rfl⟩
    have hnew : ∀ b : Bool, RcvPc.message (if b then .tearingDown 0 else .receiving) = [] := by
      intro b
      cases b <;> rfl
    have hm0 : [m].countP (isToken i k) = 0 := by
      rw [List.countP_singleton, isToken, hb]
      rfl
    simp only [hnew, hr]
    rw [show (RcvPc.handling m).message = [m] from rfl, hm0]
    rfl
  | handleTeardown m hr hk =>
    rw [hr] at hrcv
    have hm : isToken i k m = false := by
      have hkind := hrcv.kind
      rw [hk] at hkind
      rw [isToken]
      cases hb : m.body <;> rw [hb] at hkind <;> first | rfl | cases hkind
    refine ⟨?_, rfl⟩
    simp [hr, RcvPc.message, hm]
  | skip m hr hk =>
    rw [hr] at hrcv
    have hm : isToken i k m = false := by
      have hkind := hrcv.kind
      rw [isToken]
      rcases hk with hk | hk <;> rw [hk] at hkind <;> cases hb : m.body <;> rw [hb] at hkind <;>
        first | rfl | cases hkind
    refine ⟨?_, rfl⟩
    simp [hr, RcvPc.message, hm]
  | reply m hr ht =>
    refine ⟨?_, rfl⟩
    simp only [hr, RcvPc.message, List.countP_nil]
    omega
  | park k' m hr hl =>
    rw [hr] at hrcv
    refine ⟨?_, rfl⟩
    have hm : k' ≠ k → isToken i k m = false := fun hk => by simp [isToken, hrcv.2, hk]
    simp only [hr, RcvPc.message, countP_addToCache nd.kv hm, List.countP_nil]
    omega
  | drain k' kv replies hr hl hd ht =>
    rw [hr] at hrcv
    have := h.tokens_drain hrcv.1 hd i k
    refine ⟨?_, rfl⟩
    simp only [hr, RcvPc.message, List.countP_nil]
    omega
  | broadcast j hr hj =>
    refine ⟨?_, rfl⟩
    simp [hr, RcvPc.message, isToken, Message.teardownMsg, Message.ofBody]
  | broadcastEnd j hr hj =>
    refine ⟨?_, rfl⟩
    simp [hr, RcvPc.message]

theorem awaits_of_app {nd nd' : Node} (h : nd'.app = nd.app) (k : Key) :
    awaits nd' k = awaits nd k := by
  rw [awaits, awaits, h]

theorem awaits_le_one (nd : Node) (k : Key) : awaits nd k ≤ 1 := by
  rw [awaits]
  split
  · split <;> omega
  · omega

theorem awaits_pos {nd : Node} {k : Key} (h : 0 < awaits nd k) : ∃ b, nd.app = .awaiting k b := by
  rw [awaits] at h
  split at h
  · rename_i k' b ha
    split at h
    · rename_i hk
      subst hk
      exact ⟨b, ha⟩
    · omega
  · omega

/-- **A step of a node balances its tokens against the wait of its application.** -/
theorem NodeStep.tokens {cfg : Config} {id : SizeT} {nd nd' : Node} {r : Role}
    {out : List Message} (h : NodeOk cfg id nd) (hs : NodeStep cfg nd r nd' out) {i : SizeT}
    (hl : id = i → nd'.lockHeld = false) (k : Key) :
    tokens nd' i k + out.countP (isToken i k) + (if id = i then awaits nd k else 0) =
      tokens nd i k + (if id = i then awaits nd' k else 0) := by
  cases r with
  | app => exact AppStep.tokens h hs hl k
  | rcv =>
    obtain ⟨ht, ha⟩ := RcvStep.tokens h hs i k
    rw [awaits_of_app ha, ht]

/-- Only the node that asked and the home of the key hold tokens. -/
theorem NodeOk.tokens_eq_zero {cfg : Config} {id : SizeT} {nd : Node} (h : NodeOk cfg id nd)
    {i : SizeT} {k : Key} (hi : id ≠ i) (hk : k.homeNode ≠ id) : tokens nd i k = 0 := by
  have hacc : ∀ m, Accepts cfg id m → ¬ isToken i k m = true := by
    intro m hm ht
    rw [isToken] at ht
    split at ht
    · rename_i k' hb
      simp only [Bool.and_eq_true, decide_eq_true_eq] at ht
      exact hk (ht.1 ▸ (hm.getData k' hb).1)
    · rename_i k' hb
      simp only [Bool.and_eq_true, decide_eq_true_eq] at ht
      exact hk (ht.1 ▸ (hm.waitAndGet k' hb).1)
    · simp only [Bool.and_eq_true, decide_eq_true_eq] at ht
      exact hi (hm.target.symm.trans ht.2)
    · cases ht
  rw [tokens]
  refine List.countP_eq_zero.mpr fun m hm => ?_
  rcases List.mem_append.mp hm with hm | hm
  · rcases List.mem_append.mp hm with hm | hm
    · exact hacc m (h.queue m hm)
    · have hrcv := h.rcv
      cases hr : nd.rcv with
      | handling m' =>
        rw [hr] at hm hrcv
        rw [List.mem_singleton.mp hm]
        exact hacc m' hrcv
      | replying m' =>
        rw [hr] at hm hrcv
        obtain ⟨-, -, k', v, he, hk'⟩ := hrcv
        rw [List.mem_singleton.mp hm, he, isToken_replyDataMsg]
        simp only [Bool.and_eq_true, decide_eq_true_eq, not_and]
        intro hkk
        exact absurd (hkk ▸ hk') hk
      | parking k' m' =>
        rw [hr] at hm hrcv
        rw [List.mem_singleton.mp hm]
        exact hacc m' hrcv.1
      | _ =>
        rw [hr] at hm
        cases hm
  · exact hacc m (h.cached_accepts hm)

end Pseudo

end Eau2
