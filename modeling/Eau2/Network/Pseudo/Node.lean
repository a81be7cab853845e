import Eau2.Store.KVStore

/-!
# A node and its two threads

One node on the `PseudoNetwork`: its store, its `MessageQueue`, and where its
two threads stand.  The application thread is `NodeThread::run` over the calls a
program makes (`appStep`); the other is `ReceiverThread::run` (`rcvStep`).  One
step is one access of `kvMap_`, one critical section of `msgCacheLock_`, or one
operation on a queue, together with the thread's own bookkeeping around it.

A step that is not possible is `none`: the thread waits for a message, spins for
a value that is not there yet, or waits for a lock that will not be released
(`lockHeld`, the early return of `getFromNetwork_`).  A step that ends the
process is an `Except.error`.

`AppStep` and `RcvStep` say what a step that succeeded has done, one constructor
for each thing a thread can do; every later proof starts from `appStep_cases` or
`rcvStep_cases` and never opens the step functions again.
-/

namespace Eau2

namespace Pseudo

/-- A call on the store: `put`, or `getValue` (`waitAndGet` is the blocking one,
`get` the other). -/
inductive Op
  | put (k : Key) (data : Value)
  | getValue (k : Key) (shouldBlock : Bool)
  deriving DecidableEq, Repr

def Op.key : Op → Key
  | put k _ => k
  | getValue k _ => k

structure Config where
  numNodes : SizeT
  serverIndex : SizeT
  /-- `run_` of each node: the next call, given what the calls so far returned;
  `none` when `run_` returns. -/
  program : SizeT → List (Option Value) → Option Op

inductive AppPc
  /-- In `run_`, between two calls. -/
  | running
  /-- In a call, before its first access. -/
  | calling (op : Op)
  /-- In `put`: stored, `tryToHandleCache_` to come. -/
  | draining (k : Key)
  /-- In `getFromNetwork_`: asked, the cache section to come. -/
  | awaiting (k : Key) (shouldBlock : Bool)
  /-- `run_` has returned. -/
  | returned
  /-- The `DoneMsg` is out. -/
  | joining
  | finished
  deriving DecidableEq, Repr

inductive RcvPc
  | receiving
  /-- Popped, in the `switch`. -/
  | handling (m : Message)
  /-- Looked up, the reply to be sent. -/
  | replying (reply : Message)
  /-- Looked up without success, `addMsgWaitingOn` to come. -/
  | parking (k : Key) (m : Message)
  /-- In `put`: stored, `tryToHandleCache_` to come. -/
  | draining (k : Key)
  /-- In `sendTeardownMsgs_`, before message `i`. -/
  | tearingDown (i : SizeT)
  | exited
  deriving DecidableEq, Repr

structure Node where
  kv : KVStore
  queue : List Message
  app : AppPc
  rcv : RcvPc
  /-- What the calls so far returned. -/
  results : List (Option Value)
  isNodeDone : SizeT → Bool
  /-- `msgCacheLock_` was never released again. -/
  lockHeld : Bool

namespace Node

def new (i : SizeT) : Node := ⟨KVStore.new i, [], .running, .receiving, [], fun _ => false, false⟩

def finish (nd : Node) (r : Option Value) : Node :=
  { nd with app := .running, results := nd.results ++ [r] }

end Node

/-- A step that was taken: the node, and the messages it pushed. -/
abbrev Outcome := Except Fault (Node × List Message)

def send (cfg : Config) (nd : Node) (m : Message) : Outcome :=
  if m.target < cfg.numNodes then .ok (nd, [m]) else .error .noQueue

/-- `tryToHandleCache_` in its critical section, with the queues it pushes to. -/
def drain (cfg : Config) (nd : Node) (k : Key) : Outcome :=
  match nd.kv.tryToHandleCache_ k with
  | .error f => .error f
  | .ok (kv, replies) =>
    if ∀ r ∈ replies, r.target < cfg.numNodes then .ok ({ nd with kv := kv }, replies)
    else .error .noQueue

/-- The message `getFromNetwork_` asks with. -/
def request (k : Key) (shouldBlock : Bool) (sender : SizeT) : Message :=
  if shouldBlock then Message.waitAndGetMsg k sender k.homeNode
  else Message.getDataMsg k sender k.homeNode

/-- `getValue`, up to its first access. -/
def getValue (cfg : Config) (nd : Node) (k : Key) (shouldBlock : Bool) : Option Outcome :=
  if k.homeNode = nd.kv.storeId then
    match nd.kv.lookup k with
    | some val => some (.ok (nd.finish (some val), []))
    | none => if shouldBlock then none else some (.ok (nd.finish none, []))
  else
    some (send cfg { nd with app := .awaiting k shouldBlock } (request k shouldBlock nd.kv.storeId))

/-- `getFromNetwork_`, from the lock on. -/
def getFromNetwork_ (nd : Node) (k : Key) (shouldBlock : Bool) : Option Outcome :=
  if nd.lockHeld then none
  else
    match nd.kv.takeReply k with
    | some (.ok (val, kv)) => some (.ok ({ nd with kv := kv }.finish (some val), []))
    | some (.error f) => some (.error f)
    | none =>
      if shouldBlock then none
      -- the early return keeps the lock
      else some (.ok ({ nd with lockHeld := true }.finish none, []))

def appStep (cfg : Config) (nd : Node) : Option Outcome :=
  match nd.app with
  | .running =>
    match cfg.program nd.kv.storeId nd.results with
    | some op => some (.ok ({ nd with app := .calling op }, []))
    | none => some (.ok ({ nd with app := .returned }, []))
  | .calling (.put k data) =>
    if k.homeNode ≠ nd.kv.storeId then
      some (send cfg (nd.finish none) (Message.putMsg k data nd.kv.storeId k.homeNode))
    else some (.ok ({ nd with kv := nd.kv.insert k data, app := .draining k }, []))
  | .draining k => if nd.lockHeld then none else some (drain cfg (nd.finish none) k)
  | .calling (.getValue k shouldBlock) => getValue cfg nd k shouldBlock
  | .awaiting k shouldBlock => getFromNetwork_ nd k shouldBlock
  | .returned =>
    some (send cfg { nd with app := .joining } (Message.doneMsg nd.kv.storeId cfg.serverIndex))
  | .joining => if nd.rcv = .exited then some (.ok ({ nd with app := .finished }, [])) else none
  | .finished => none

/-- `getValue(k, false)` as the receiver calls it. -/
def lookupHere (nd : Node) (k : Key) : Except Fault (Option Value) :=
  if k.homeNode = nd.kv.storeId then .ok (nd.kv.lookup k) else .error .misrouted

def allDone (cfg : Config) (isNodeDone : SizeT → Bool) : Bool :=
  (List.range cfg.numNodes.toNat).all fun i => isNodeDone (UInt64.ofNat i)

/-- `handleDoneMsg`, up to `sendTeardownMsgs_`. -/
def handleDoneMsg (cfg : Config) (nd : Node) (m : Message) : Outcome :=
  if nd.kv.storeId ≠ 0 then .error .notServer
  else if ¬ m.sender < cfg.numNodes then .error .noSuchNode
  else
    let isNodeDone := fun i => if i = m.sender then true else nd.isNodeDone i
    .ok ({ nd with
      isNodeDone := isNodeDone
      rcv := if allDone cfg isNodeDone then .tearingDown 0 else .receiving }, [])

/-- The `switch` of `ReceiverThread::run`. -/
def handle (cfg : Config) (nd : Node) (m : Message) : Option Outcome :=
  match m.kind, m.body with
  | .GetData, .getData k =>
    match lookupHere nd k with
    | .error f => some (.error f)
    | .ok none => some (.error .nullGetData)
    | .ok (some val) =>
      let reply := Message.replyDataMsg k val nd.kv.storeId m.sender
      some (.ok ({ nd with rcv := .replying reply }, []))
  | .WaitAndGet, .waitAndGet k =>
    match lookupHere nd k with
    | .error f => some (.error f)
    | .ok none => some (.ok ({ nd with rcv := .parking k m }, []))
    | .ok (some val) =>
      let reply := Message.replyDataMsg k val nd.kv.storeId m.sender
      some (.ok ({ nd with rcv := .replying reply }, []))
  | .ReplyData, .replyData k _ =>
    if nd.lockHeld then none
    else some (.ok ({ nd with kv := nd.kv.addToCache_ k m, rcv := .receiving }, []))
  | .Put, .put k data =>
    if k.homeNode ≠ nd.kv.storeId then some (.error .wrongHome)
    else some (.ok ({ nd with kv := nd.kv.insert k data, rcv := .draining k }, []))
  | .Register, .register _ => some (.ok ({ nd with rcv := .receiving }, []))
  | .Dir, _ => some (.ok ({ nd with rcv := .receiving }, []))
  | .Done, .done => some (handleDoneMsg cfg nd m)
  | .Teardown, _ => some (.ok ({ nd with rcv := .exited }, []))
  | _, _ => some (.error .badCast)

def rcvStep (cfg : Config) (nd : Node) : Option Outcome :=
  match nd.rcv with
  | .receiving =>
    match nd.queue with
    | [] => none
    | m :: queue => some (.ok ({ nd with queue := queue, rcv := .handling m }, []))
  | .handling m => handle cfg nd m
  | .replying reply => some (send cfg { nd with rcv := .receiving } reply)
  | .parking k m =>
    if nd.lockHeld then none
    else some (.ok ({ nd with kv := nd.kv.addToCache_ k m, rcv := .receiving }, []))
  | .draining k =>
    if nd.lockHeld then none else some (drain cfg { nd with rcv := .receiving } k)
  | .tearingDown i =>
    if i < cfg.numNodes then
      some (send cfg { nd with rcv := .tearingDown (i + 1) } (Message.teardownMsg nd.kv.storeId i))
    else some (.ok ({ nd with rcv := .receiving }, []))
  | .exited => none

/-! ### What a step can do -/

open KVStore (Drained Taken)

/-- What a step of the application thread can do. -/
inductive AppStep (cfg : Config) (nd : Node) : Node → List Message → Prop
  | call (op : Op) : nd.app = .running → cfg.program nd.kv.storeId nd.results = some op →
      AppStep cfg nd { nd with app := .calling op } []
  | ret : nd.app = .running → cfg.program nd.kv.storeId nd.results = none →
      AppStep cfg nd { nd with app := .returned } []
  | putRemote (k : Key) (data : Value) : nd.app = .calling (.put k data) →
      k.homeNode ≠ nd.kv.storeId → k.homeNode < cfg.numNodes →
      AppStep cfg nd (nd.finish none) [Message.putMsg k data nd.kv.storeId k.homeNode]
  | putLocal (k : Key) (data : Value) : nd.app = .calling (.put k data) →
      k.homeNode = nd.kv.storeId →
      AppStep cfg nd { nd with kv := nd.kv.insert k data, app := .draining k } []
  | drain (k : Key) (kv : KVStore) (replies : List Message) : nd.app = .draining k →
      nd.lockHeld = false → Drained nd.kv kv k replies →
      (∀ r ∈ replies, r.target < cfg.numNodes) →
      AppStep cfg nd { nd.finish none with kv := kv } replies
  | getLocal (k : Key) (shouldBlock : Bool) (r : Option Value) :
      nd.app = .calling (.getValue k shouldBlock) → k.homeNode = nd.kv.storeId →
      nd.kv.lookup k = r → (shouldBlock = true → r.isSome) → AppStep cfg nd (nd.finish r) []
  | ask (k : Key) (shouldBlock : Bool) : nd.app = .calling (.getValue k shouldBlock) →
      k.homeNode ≠ nd.kv.storeId → k.homeNode < cfg.numNodes →
      AppStep cfg nd { nd with app := .awaiting k shouldBlock }
        [request k shouldBlock nd.kv.storeId]
  | take (k : Key) (shouldBlock : Bool) (val : Value) (kv : KVStore) :
      nd.app = .awaiting k shouldBlock → nd.lockHeld = false → Taken nd.kv kv k val →
      AppStep cfg nd { nd.finish (some val) with kv := kv } []
  | giveUp (k : Key) : nd.app = .awaiting k false → nd.lockHeld = false →
      nd.kv.msgCache.get k = none →
      AppStep cfg nd { nd.finish none with lockHeld := true } []
  | done : nd.app = .returned → cfg.serverIndex < cfg.numNodes →
      AppStep cfg nd { nd with app := .joining } [Message.doneMsg nd.kv.storeId cfg.serverIndex]
  | join : nd.app = .joining → nd.rcv = .exited →
      AppStep cfg nd { nd with app := .finished } []

/-- What a step of the receiver thread can do. -/
inductive RcvStep (cfg : Config) (nd : Node) : Node → List Message → Prop
  | receive (m : Message) (queue : List Message) : nd.rcv = .receiving →
      nd.queue = m :: queue →
      RcvStep cfg nd { nd with queue := queue, rcv := .handling m } []
  | serve (m : Message) (k : Key) (val : Value) : nd.rcv = .handling m →
      m.body = .getData k ∨ m.body = .waitAndGet k → k.homeNode = nd.kv.storeId →
      nd.kv.lookup k = some val →
      RcvStep cfg nd
        { nd with rcv := .replying (Message.replyDataMsg k val nd.kv.storeId m.sender) } []
  | miss (m : Message) (k : Key) : nd.rcv = .handling m → m.body = .waitAndGet k →
      k.homeNode = nd.kv.storeId → nd.kv.lookup k = none →
      RcvStep cfg nd { nd with rcv := .parking k m } []
  | addReply (m : Message) (k : Key) (val : Value) : nd.rcv = .handling m →
      m.body = .replyData k val → nd.lockHeld = false →
      RcvStep cfg nd { nd with kv := nd.kv.addToCache_ k m, rcv := .receiving } []
  | put (m : Message) (k : Key) (data : Value) : nd.rcv = .handling m → m.body = .put k data →
      k.homeNode = nd.kv.storeId →
      RcvStep cfg nd { nd with kv := nd.kv.insert k data, rcv := .draining k } []
  | handleDone (m : Message) : nd.rcv = .handling m → m.body = .done → nd.kv.storeId = 0 →
      m.sender < cfg.numNodes →
      RcvStep cfg nd
        { nd with
          isNodeDone := fun i => if i = m.sender then true else nd.isNodeDone i
          rcv := if allDone cfg fun i => if i = m.sender then true else nd.isNodeDone i
            then .tearingDown 0 else .receiving } []
  | handleTeardown (m : Message) : nd.rcv = .handling m → m.kind = .Teardown →
      RcvStep cfg nd { nd with rcv := .exited } []
  | skip (m : Message) : nd.rcv = .handling m → m.kind = .Register ∨ m.kind = .Dir →
      RcvStep cfg nd { nd with rcv := .receiving } []
  | reply (m : Message) : nd.rcv = .replying m → m.target < cfg.numNodes →
      RcvStep cfg nd { nd with rcv := .receiving } [m]
  | park (k : Key) (m : Message) : nd.rcv = .parking k m → nd.lockHeld = false →
      RcvStep cfg nd { nd with kv := nd.kv.addToCache_ k m, rcv := .receiving } []
  | drain (k : Key) (kv : KVStore) (replies : List Message) : nd.rcv = .draining k →
      nd.lockHeld = false → Drained nd.kv kv k replies →
      (∀ r ∈ replies, r.target < cfg.numNodes) →
      RcvStep cfg nd { nd with kv := kv, rcv := .receiving } replies
  | broadcast (i : SizeT) : nd.rcv = .tearingDown i → i < cfg.numNodes →
      RcvStep cfg nd { nd with rcv := .tearingDown (i + 1) }
        [Message.teardownMsg nd.kv.storeId i]
  | broadcastEnd (i : SizeT) : nd.rcv = .tearingDown i → ¬ i < cfg.numNodes →
      RcvStep cfg nd { nd with rcv := .receiving } []

theorem send_eq_ok {cfg : Config} {nd nd' : Node} {m : Message} {out : List Message}
    (h : send cfg nd m = .ok (nd', out)) : m.target < cfg.numNodes ∧ nd' = nd ∧ out = [m] := by
  rw [send] at h
  split at h
  · cases h
    exact ⟨by assumption, rfl, rfl⟩
  · cases h

theorem drain_eq_ok {cfg : Config} {nd nd' : Node} {k : Key} {out : List Message}
    (h : drain cfg nd k = .ok (nd', out)) : ∃ kv, nd' = { nd with kv := kv } ∧
      Drained nd.kv kv k out ∧ ∀ r ∈ out, r.target < cfg.numNodes := by
  rw [drain] at h
  split at h
  · cases h
  · rename_i kv replies he
    split at h
    · cases h
      exact ⟨kv, rfl, KVStore.tryToHandleCache_eq_ok he, by assumption⟩
    · cases h

@[simp] theorem request_target (k : Key) (b : Bool) (i : SizeT) :
    (request k b i).target = k.homeNode := by
  cases b <;> rfl

theorem appStep_cases {cfg : Config} {nd nd' : Node} {out : List Message}
    (h : appStep cfg nd = some (.ok (nd', out))) : AppStep cfg nd nd' out := by
  rw [appStep] at h
  split at h
  · -- between two calls
    rename_i ha
    split at h
    · cases h
      exact .call _ ha (by assumption)
    · cases h
      exact .ret ha (by assumption)
  · -- `put`
    rename_i k data ha
    split at h
    · rename_i hk
      obtain ⟨ht, rfl, rfl⟩ := send_eq_ok (Option.some.inj h)
      exact .putRemote k data ha hk ht
    · rename_i hk
      cases h
      exact .putLocal k data ha (not_not.mp hk)
  · -- the drain of a `put`
    rename_i k ha
    split at h
    · cases h
    · rename_i hl
      obtain ⟨kv, rfl, hd, ht⟩ := drain_eq_ok (Option.some.inj h)
      exact .drain k kv out ha (Bool.not_eq_true _ ▸ hl) hd ht
  · -- `getValue`
    rename_i k b ha
    rw [getValue] at h
    split at h
    · rename_i hk
      split at h
      · rename_i val hv
        cases h
        exact .getLocal k b (some val) ha hk hv fun _ => rfl
      · rename_i hv
        split at h
        · cases h
        · rename_i hb
          cases h
          exact .getLocal k b none ha hk hv fun hb' => absurd hb' hb
    · rename_i hk
      obtain ⟨ht, rfl, rfl⟩ := send_eq_ok (Option.some.inj h)
      exact .ask k b ha hk (by rwa [request_target] at ht)
  · -- the cache section of `getFromNetwork_`
    rename_i k b ha
    rw [getFromNetwork_] at h
    split at h
    · cases h
    · rename_i hl
      have hl' : nd.lockHeld = false := Bool.not_eq_true _ ▸ hl
      split at h
      · rename_i val kv ht
        cases h
        exact .take k b val kv ha hl' (KVStore.takeReply_eq_ok ht)
      · cases h
      · rename_i ht
        split at h
        · cases h
        · rename_i hb
          cases h
          have hb' : b = false := Bool.not_eq_true _ ▸ hb
          subst hb'
          exact .giveUp k ha hl' (KVStore.takeReply_eq_none.mp ht)
  · -- `run_` has returned
    rename_i ha
    obtain ⟨ht, rfl, rfl⟩ := send_eq_ok (Option.some.inj h)
    exact .done ha ht
  · rename_i ha
    split at h
    · cases h
      exact .join ha (by assumption)
    · cases h
  · cases h

theorem lookupHere_eq_ok {nd : Node} {k : Key} {r : Option Value}
    (h : lookupHere nd k = .ok r) : k.homeNode = nd.kv.storeId ∧ nd.kv.lookup k = r := by
  rw [lookupHere] at h
  split at h
  · cases h
    exact ⟨by assumption, rfl⟩
  · cases h

theorem handle_cases {cfg : Config} {nd nd' : Node} {m : Message} {out : List Message}
    (ha : nd.rcv = .handling m) (h : handle cfg nd m = some (.ok (nd', out))) :
    RcvStep cfg nd nd' out := by
  rw [handle] at h
  split at h
  · -- `GetData`
    rename_i k hkind hb
    split at h
    · cases h
    · cases h
    · rename_i val hv
      obtain ⟨hk, hv⟩ := lookupHere_eq_ok hv
      cases h
      exact .serve m k val ha (Or.inl hb) hk hv
  · -- `WaitAndGet`
    rename_i k hkind hb
    split at h
    · cases h
    · rename_i hv
      obtain ⟨hk, hv⟩ := lookupHere_eq_ok hv
      cases h
      exact .miss m k ha hb hk hv
    · rename_i val hv
      obtain ⟨hk, hv⟩ := lookupHere_eq_ok hv
      cases h
      exact .serve m k val ha (Or.inr hb) hk hv
  · -- `ReplyData`
    rename_i k val hkind hb
    split at h
    · cases h
    · rename_i hl
      cases h
      exact .addReply m k val ha hb (Bool.not_eq_true _ ▸ hl)
  · -- `Put`
    rename_i k data hkind hb
    split at h
    · cases h
    · rename_i hk
      cases h
      exact .put m k data ha hb (not_not.mp hk)
  · rename_i info hkind hb
    cases h
    exact .skip m ha (Or.inl hkind)
  · rename_i hkind
    cases h
    exact .skip m ha (Or.inr hkind)
  · -- `Done`
    rename_i hkind hb
    rw [handleDoneMsg] at h
    split at h
    · cases h
    · rename_i hs
      split at h
      · cases h
      · rename_i ht
        cases h
        exact .handleDone m ha hb (not_not.mp hs) (not_not.mp ht)
  · rename_i hkind
    cases h
    exact .handleTeardown m ha hkind
  · cases h

theorem rcvStep_cases {cfg : Config} {nd nd' : Node} {out : List Message}
    (h : rcvStep cfg nd = some (.ok (nd', out))) : RcvStep cfg nd nd' out := by
  rw [rcvStep] at h
  split at h
  · rename_i ha
    split at h
    · cases h
    · rename_i m queue hq
      cases h
      exact .receive m queue ha hq
  · rename_i m ha
    exact handle_cases ha h
  · rename_i m ha
    obtain ⟨ht, rfl, rfl⟩ := send_eq_ok (Option.some.inj h)
    exact .reply m ha ht
  · rename_i k m ha
    split at h
    · cases h
    · rename_i hl
      cases h
      exact .park k m ha (Bool.not_eq_true _ ▸ hl)
  · rename_i k ha
    split at h
    · cases h
    · rename_i hl
      obtain ⟨kv, rfl, hd, ht⟩ := drain_eq_ok (Option.some.inj h)
      exact .drain k kv out ha (Bool.not_eq_true _ ▸ hl) hd ht
  · rename_i i ha
    split at h
    · rename_i hi
      obtain ⟨-, rfl, rfl⟩ := send_eq_ok (Option.some.inj h)
      exact .broadcast i ha hi
    · rename_i hi
      cases h
      exact .broadcastEnd i ha hi
  · cases h

end Pseudo

end Eau2
