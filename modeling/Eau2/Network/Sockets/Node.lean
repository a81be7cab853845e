import Eau2.Network.Pseudo.Cluster
import Eau2.Network.Registration
import Eau2.Network.Shared

/-!
# A node on the real network

One node behind its `init`: the store, the `Network` object that both threads call into, and
where the two threads stand between their calls of it.  `appStep` is `NodeThread::run` over the
calls a program makes, `rcvStep` is the `switch` of `ReceiverThread::run` with what it calls in
`kvstore.h`.  A `sendMsg` only leaves its message in `pending` here, and a thread takes no
further step of its own before that call has returned; the lines of `sendMsg` and `receiveMsg`
are in `Network/Sockets/Cluster.lean`.

Unlike on the pseudo network a `sendMsg` takes its time, so `tryToHandleCache_` is a loop
(`answering`) that keeps `msgCacheLock_` from one reply to the next.

* `appStep_apart`, `rcvStep_apart`: these steps leave the network alone.
-/

namespace Eau2

namespace Sockets

open Pseudo (Op Role ThreadId request)

structure Config extends Pseudo.Config where
  /-- `dir_` of each node behind `server_init` or `client_init`. -/
  dir : SizeT → Directory
  /-- How many bytes a connection holds that were sent and not yet read. -/
  buffered : Nat

inductive AppPc
  /-- In `run_`, between two calls. -/
  | running
  /-- In a call, before its first access. -/
  | calling (op : Op)
  /-- In `put`: stored, `tryToHandleCache_` to come. -/
  | draining (k : Key)
  /-- In the loop of `tryToHandleCache_`: these are to be answered. -/
  | answering (k : Key) (arrMsgs : List Message)
  /-- In `getFromNetwork_`: asked, the cache section to come. -/
  | awaiting (k : Key) (shouldBlock : Bool)
  /-- The call is through and returns this. -/
  | returning (r : Option Value)
  /-- `run_` has returned. -/
  | returned
  /-- In `rt->join()`. -/
  | joining
  deriving DecidableEq, Repr

inductive RcvPc
  /-- In `acceptConnection_`. -/
  | receiving
  /-- In `readStrFromNet_`, with what `read()` returned so far. -/
  | reading (tmpFd : Nat) (rs : List Recv)
  /-- In the rest of `receiveMsg`. -/
  | decoding
  /-- In the `switch`. -/
  | handling (m : Message)
  /-- Looked up without success, `addMsgWaitingOn` to come. -/
  | parking (k : Key) (m : Message)
  /-- In `put`: stored, `tryToHandleCache_` to come. -/
  | draining (k : Key)
  /-- In the loop of `tryToHandleCache_`: these are to be answered. -/
  | answering (k : Key) (arrMsgs : List Message)
  /-- In `sendTeardownMsgs_`, before message `i`. -/
  | tearingDown (i : SizeT)
  | exited
  deriving DecidableEq, Repr

structure Node where
  kv : KVStore
  network : SharedNet Role
  app : AppPc
  rcv : RcvPc
  /-- The message `sendMsg` was called with, before it connects. -/
  pending : Role → Option Message
  /-- `sendMsg`: the connection of the thread's last call. -/
  targetFd : Role → Nat
  /-- The connections waiting in `accept`, first come first.  The kernel may keep further
  ones back, as if their threads had not got that far. -/
  backlog : List Nat
  /-- The thread that holds `msgCacheLock_`. -/
  msgCacheLock : Option Role
  /-- What the calls so far returned. -/
  results : List (Option Value)
  isNodeDone : SizeT → Bool
  /-- The process is gone: `main` returned, or an assertion failed. -/
  ended : Bool

namespace Node

def new (cfg : Config) (i : SizeT) : Node where
  kv := KVStore.new i
  network := SharedNet.new (cfg.dir i)
  app := .running
  rcv := .receiving
  pending _ := none
  targetFd _ := 0
  backlog := []
  msgCacheLock := none
  results := []
  isNodeDone _ := false
  ended := false

def exit (nd : Node) : Node := { nd with ended := true }

def sendMsg (nd : Node) (r : Role) (msg : Message) : Node :=
  { nd with pending := Function.update nd.pending r (some msg) }

def Accepting (nd : Node) : Prop :=
  nd.rcv = .receiving ∧ nd.pending .rcv = none ∧ nd.network.call .rcv = .idle

instance (nd : Node) : Decidable nd.Accepting := inferInstanceAs (Decidable (_ ∧ _ ∧ _))

end Node

/-- `msgCache_->remove(k)` in `tryToHandleCache_`, where it is there. -/
def takeWaiters (kv : KVStore) (k : Key) : List Message × KVStore :=
  match kv.msgCache.remove k with
  | none => ([], kv)
  | some (arrMsgs, msgCache) => (arrMsgs, { kv with msgCache := msgCache })

/-- `getFromNetwork_`, from the lock on. -/
def getFromNetwork_ (nd : Node) (k : Key) (shouldBlock : Bool) : Option Node :=
  if nd.msgCacheLock ≠ none then none
  else
    match nd.kv.takeReply k with
    | some (.ok (val, kv)) => some { nd with kv := kv, app := .returning (some val) }
    | some (.error _) => some nd.exit
    | none =>
      if shouldBlock then none
      -- the early return keeps the lock
      else some { nd with msgCacheLock := some .app, app := .returning none }

def appStep (cfg : Config) (nd : Node) : Option Node :=
  match nd.app with
  | .running =>
    match cfg.program nd.kv.storeId nd.results with
    | some op => some { nd with app := .calling op }
    | none => some { nd with app := .returned }
  | .calling (.put k data) =>
    if k.homeNode ≠ nd.kv.storeId then
      some ({ nd with app := .returning none }.sendMsg .app
        (Message.putMsg k data nd.kv.storeId k.homeNode))
    else some { nd with kv := nd.kv.insert k data, app := .draining k }
  | .calling (.getValue k shouldBlock) =>
    if k.homeNode = nd.kv.storeId then
      match nd.kv.lookup k with
      | some val => some { nd with app := .returning (some val) }
      | none => if shouldBlock then none else some { nd with app := .returning none }
    else
      some ({ nd with app := .awaiting k shouldBlock }.sendMsg .app
        (request k shouldBlock nd.kv.storeId))
  | .awaiting k shouldBlock => getFromNetwork_ nd k shouldBlock
  | .draining k =>
    if nd.msgCacheLock ≠ none then none
    else
      some { nd with
        kv := (takeWaiters nd.kv k).2
        msgCacheLock := some .app
        app := .answering k (takeWaiters nd.kv k).1 }
  | .answering _ [] => some { nd with msgCacheLock := none, app := .returning none }
  | .answering k (wagMsg :: arrMsgs) =>
    match nd.kv.answer k wagMsg with
    | .error _ => some nd.exit
    | .ok reply => some ({ nd with app := .answering k arrMsgs }.sendMsg .app reply)
  | .returning r => some { nd with app := .running, results := nd.results ++ [r] }
  | .returned =>
    some ({ nd with app := .joining }.sendMsg .app
      (Message.doneMsg nd.kv.storeId cfg.serverIndex))
  | .joining => if nd.rcv = .exited then some nd.exit else none

/-- `handleDoneMsg`, up to `sendTeardownMsgs_`. -/
def handleDoneMsg (cfg : Config) (nd : Node) (m : Message) : Node :=
  if nd.kv.storeId ≠ cfg.serverIndex ∨ ¬ m.sender < cfg.numNodes then nd.exit
  else
    let isNodeDone := Function.update nd.isNodeDone m.sender true
    { nd with
      isNodeDone := isNodeDone
      rcv := if Pseudo.allDone cfg.toConfig isNodeDone then .tearingDown 0 else .receiving }

/-- The reply to a request for a key that is homed here, or what to do without a value. -/
def reply (nd : Node) (k : Key) (m : Message) (missing : Node) : Node :=
  -- a key homed elsewhere would be passed on to the network; requests go to their key's home
  if k.homeNode ≠ nd.kv.storeId then nd.exit
  else
    match nd.kv.lookup k with
    | some val =>
      { nd with rcv := .receiving }.sendMsg .rcv
        (Message.replyDataMsg k val nd.kv.storeId m.sender)
    | none => missing

def handle (cfg : Config) (nd : Node) (m : Message) : Option Node :=
  match m.kind, m.body with
  -- a `ReplyDataMsg` of a null pointer
  | .GetData, .getData k => some (reply nd k m nd.exit)
  | .WaitAndGet, .waitAndGet k => some (reply nd k m { nd with rcv := .parking k m })
  | .ReplyData, .replyData k _ =>
    if nd.msgCacheLock ≠ none then none
    else some { nd with kv := nd.kv.addToCache_ k m, rcv := .receiving }
  | .Put, .put k data =>
    if k.homeNode ≠ nd.kv.storeId then some nd.exit
    else some { nd with kv := nd.kv.insert k data, rcv := .draining k }
  | .Register, .register info =>
    match nd.network.net.handleRegisterMsg m.sender info with
    | some net => some { nd with network := { nd.network with net := net }, rcv := .receiving }
    | none => some nd.exit
  | .Dir, .dir d =>
    match nd.network.net.handleDirectoryMsg d with
    | some net => some { nd with network := { nd.network with net := net }, rcv := .receiving }
    | none => some nd.exit
  | .Done, .done => some (handleDoneMsg cfg nd m)
  | .Teardown, _ => some { nd with rcv := .exited }
  | _, _ => some nd.exit

def rcvStep (cfg : Config) (nd : Node) : Option Node :=
  match nd.rcv with
  | .handling m => handle cfg nd m
  | .parking k m =>
    if nd.msgCacheLock ≠ none then none
    else some { nd with kv := nd.kv.addToCache_ k m, rcv := .receiving }
  | .draining k =>
    if nd.msgCacheLock ≠ none then none
    else
      some { nd with
        kv := (takeWaiters nd.kv k).2
        msgCacheLock := some .rcv
        rcv := .answering k (takeWaiters nd.kv k).1 }
  | .answering _ [] => some { nd with msgCacheLock := none, rcv := .receiving }
  | .answering k (wagMsg :: arrMsgs) =>
    match nd.kv.answer k wagMsg with
    | .error _ => some nd.exit
    | .ok reply => some ({ nd with rcv := .answering k arrMsgs }.sendMsg .rcv reply)
  | .tearingDown i =>
    if i < cfg.numNodes then
      some ({ nd with rcv := .tearingDown (i + 1) }.sendMsg .rcv
        (Message.teardownMsg nd.kv.storeId i))
    else some { nd with rcv := .receiving }
  | .receiving | .reading _ _ | .decoding | .exited => none

/-! ### What these steps leave alone -/

/-- The calls of the network and its lock stay where they are, and so does a receiver thread
that waits for a connection or reads one. -/
structure Apart (nd nd' : Node) : Prop where
  call : nd'.network.call = nd.network.call
  lock : nd'.network.lock_ = nd.network.lock_
  targetFd : nd'.targetFd = nd.targetFd
  backlog : nd'.backlog = nd.backlog
  reading : ∀ fd rs, nd'.rcv = .reading fd rs ↔ nd.rcv = .reading fd rs
  pending : ∀ fd rs, nd.rcv = .reading fd rs → nd'.pending .rcv = nd.pending .rcv
  accepting : nd.Accepting → nd'.Accepting

theorem Apart.of_app {nd nd' : Node} (hn : nd'.network = nd.network)
    (ht : nd'.targetFd = nd.targetFd) (hb : nd'.backlog = nd.backlog) (hr : nd'.rcv = nd.rcv)
    (hp : nd'.pending .rcv = nd.pending .rcv) : Apart nd nd' where
  call := by rw [hn]
  lock := by rw [hn]
  targetFd := ht
  backlog := hb
  reading fd rs := by rw [hr]
  pending _ _ _ := hp
  accepting h := by
    rw [Node.Accepting, hr, hp, hn]
    exact h

def RcvPc.Busy : RcvPc → Prop
  | receiving | reading _ _ => False
  | _ => True

theorem Apart.of_rcv {nd nd' : Node} (hc : nd'.network.call = nd.network.call)
    (hl : nd'.network.lock_ = nd.network.lock_) (ht : nd'.targetFd = nd.targetFd)
    (hb : nd'.backlog = nd.backlog) (h : nd.rcv.Busy) (h' : ∀ fd rs, nd'.rcv ≠ .reading fd rs) :
    Apart nd nd' where
  call := hc
  lock := hl
  targetFd := ht
  backlog := hb
  reading fd rs := by
    refine iff_of_false (h' fd rs) ?_
    intro hr
    rw [hr] at h
    exact h
  pending fd rs hr := by
    rw [hr] at h
    exact h.elim
  accepting ha := by
    rw [ha.1] at h
    exact h.elim

theorem getFromNetwork_apart {nd nd' : Node} {k : Key} {shouldBlock : Bool}
    (h : getFromNetwork_ nd k shouldBlock = some nd') : Apart nd nd' := by
  rw [getFromNetwork_] at h
  split at h
  · cases h
  · split at h
    · cases h
      exact .of_app rfl rfl rfl rfl rfl
    · cases h
      exact .of_app rfl rfl rfl rfl rfl
    · split at h
      · cases h
      · cases h
        exact .of_app rfl rfl rfl rfl rfl

/-- **The application thread's own steps leave the network alone.** -/
theorem appStep_apart {cfg : Config} {nd nd' : Node} (h : appStep cfg nd = some nd') :
    Apart nd nd' := by
  rw [appStep] at h
  split at h
  · split at h
    all_goals
      cases h
      exact .of_app rfl rfl rfl rfl rfl
  · split at h
    all_goals
      cases h
      exact .of_app rfl rfl rfl rfl rfl
  · split at h
    · split at h
      · cases h
        exact .of_app rfl rfl rfl rfl rfl
      · split at h
        · cases h
        · cases h
          exact .of_app rfl rfl rfl rfl rfl
    · cases h
      exact .of_app rfl rfl rfl rfl rfl
  · exact getFromNetwork_apart h
  · split at h
    · cases h
    · cases h
      exact .of_app rfl rfl rfl rfl rfl
  · cases h
    exact .of_app rfl rfl rfl rfl rfl
  · split at h
    all_goals
      cases h
      exact .of_app rfl rfl rfl rfl rfl
  · cases h
    exact .of_app rfl rfl rfl rfl rfl
  · cases h
    exact .of_app rfl rfl rfl rfl rfl
  · split at h
    · cases h
      exact .of_app rfl rfl rfl rfl rfl
    · cases h

theorem Apart.exit (nd : Node) : Apart nd nd.exit := .of_app rfl rfl rfl rfl rfl

theorem reply_apart {nd missing : Node} {k : Key} {m : Message} (h : nd.rcv.Busy)
    (hm : Apart nd missing) : Apart nd (reply nd k m missing) := by
  rw [reply]
  split
  · exact .exit nd
  · split
    · exact .of_rcv rfl rfl rfl rfl h (fun _ _ hr => by cases hr)
    · exact hm

theorem handle_apart {cfg : Config} {nd nd' : Node} {m : Message} (hb : nd.rcv.Busy)
    (h : handle cfg nd m = some nd') : Apart nd nd' := by
  rw [handle] at h
  split at h
  · cases h
    exact reply_apart hb (.exit nd)
  · cases h
    exact reply_apart hb (.of_rcv rfl rfl rfl rfl hb (fun _ _ hr => by cases hr))
  · split at h
    · cases h
    · cases h
      exact .of_rcv rfl rfl rfl rfl hb (fun _ _ hr => by cases hr)
  · split at h
    · cases h
      exact .exit nd
    · cases h
      exact .of_rcv rfl rfl rfl rfl hb (fun _ _ hr => by cases hr)
  · split at h
    · cases h
      exact .of_rcv rfl rfl rfl rfl hb (fun _ _ hr => by cases hr)
    · cases h
      exact .exit nd
  · split at h
    · cases h
      exact .of_rcv rfl rfl rfl rfl hb (fun _ _ hr => by cases hr)
    · cases h
      exact .exit nd
  · cases h
    rw [handleDoneMsg]
    split
    · exact .exit nd
    · refine .of_rcv rfl rfl rfl rfl hb ?_
      intro fd rs hr
      dsimp only at hr
      split at hr <;> cases hr
  · cases h
    exact .of_rcv rfl rfl rfl rfl hb (fun _ _ hr => by cases hr)
  · cases h
    exact .exit nd

/-- **The receiver thread's own steps leave the network alone.** -/
theorem rcvStep_apart {cfg : Config} {nd nd' : Node} (h : rcvStep cfg nd = some nd') :
    Apart nd nd' := by
  have hb : ∀ {pc : RcvPc}, nd.rcv = pc → pc.Busy → nd.rcv.Busy := fun hr hpc => hr ▸ hpc
  rw [rcvStep] at h
  split at h
  · rename_i m hr
    exact handle_apart (hb hr trivial) h
  · rename_i k m hr
    split at h
    · cases h
    · cases h
      exact .of_rcv rfl rfl rfl rfl (hb hr trivial) (fun _ _ hr => by cases hr)
  · rename_i k hr
    split at h
    · cases h
    · cases h
      exact .of_rcv rfl rfl rfl rfl (hb hr trivial) (fun _ _ hr => by cases hr)
  · rename_i k hr
    cases h
    exact .of_rcv rfl rfl rfl rfl (hb hr trivial) (fun _ _ hr => by cases hr)
  · rename_i k wagMsg arrMsgs hr
    split at h
    · cases h
      exact .exit nd
    · cases h
      exact .of_rcv rfl rfl rfl rfl (hb hr trivial) (fun _ _ hr => by cases hr)
  · rename_i i hr
    split at h
    all_goals
      cases h
      exact .of_rcv rfl rfl rfl rfl (hb hr trivial) (fun _ _ hr => by cases hr)
  all_goals cases h

end Sockets

end Eau2
