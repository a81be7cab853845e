import Eau2.Network.Message

/-!
# The key-value store

`store/kvstore.h`: the values homed on a node, and the messages parked until
they can be used.  `msgCache` serves two ends: under a key homed here it holds
the `WaitAndGetMsg`s of others (`addMsgWaitingOn`), under a key homed elsewhere
the `ReplyDataMsg` the application waits for (`addReply`).

Each definition is what happens in one access of `kvMap_` or in one critical
section of `msgCacheLock_`; how they are strung together is the threads'
business (`Network/Pseudo/Node.lean`).

* `cached_addToCache`, `cached_takeReply`: how a section changes the messages
  cached under a key.
* `tryToHandleCache_eq_ok`: a drain answers exactly the messages it removes.
-/

namespace Eau2

/-- The assertions and null dereferences that end the process. -/
inductive Fault
  /-- `mqa_->get(target)`: there is no such queue. -/
  | noQueue
  /-- `getFromNetwork_`: `msgArr->length() == 1`. -/
  | notOneMessage
  /-- `getFromNetwork_`: the cached message is a reply. -/
  | notReply
  /-- `tryToHandleCache_`: the cached message is a waiter. -/
  | notWaitAndGet
  /-- `tryToHandleCache_`: the value to reply with is null. -/
  | nullDrain
  /-- `ReceiverThread::run`, `GetData`: the value to reply with is null. -/
  | nullGetData
  /-- `ReceiverThread::run`: the kind of a message is not its class's. -/
  | badCast
  /-- `ReceiverThread::run`, `Put`: the key is homed here. -/
  | wrongHome
  /-- `handleDoneMsg`: this is node `0`. -/
  | notServer
  /-- `handleDoneMsg`: the sender is behind the end of `isNodeDone_`. -/
  | noSuchNode
  /-- A request for a key homed elsewhere, which the receiver would pass on to
  the network itself. -/
  | misrouted
  deriving DecidableEq, Repr

structure KVStore where
  storeId : SizeT
  kvMap : Table CStr Value
  msgCache : Table Key (List Message)

namespace KVStore

def new (storeId : SizeT) : KVStore := ⟨storeId, Table.new, Table.new⟩

/-- `kvMap_->get`, as `getValue` uses it for a key homed here. -/
def lookup (s : KVStore) (k : Key) : Option Value := s.kvMap.get k.kStr

/-- `kvMap_->put`, as `put` uses it for a key homed here. -/
def insert (s : KVStore) (k : Key) (data : Value) : KVStore :=
  { s with kvMap := s.kvMap.put k.kStr data }

def cached (s : KVStore) (k : Key) : List Message := (s.msgCache.get k).getD []

def addToCache_ (s : KVStore) (k : Key) (msg : Message) : KVStore :=
  match s.msgCache.get k with
  | some arrMsgs => { s with msgCache := s.msgCache.put k (arrMsgs ++ [msg]) }
  | none => { s with msgCache := s.msgCache.put k [msg] }

def answer (s : KVStore) (k : Key) (msg : Message) : Except Fault Message :=
  match msg.body with
  | .waitAndGet _ =>
    match s.lookup k with
    | some val => .ok (Message.replyDataMsg k val s.storeId msg.sender)
    | none => .error .nullDrain
  | _ => .error .notWaitAndGet

/-- `tryToHandleCache_`: the store, and the replies it sends. -/
def tryToHandleCache_ (s : KVStore) (k : Key) : Except Fault (KVStore × List Message) :=
  match s.msgCache.remove k with
  | none => .ok (s, [])
  | some (arrMsgs, msgCache) => do
    let replies ← arrMsgs.mapM (s.answer k)
    pure ({ s with msgCache := msgCache }, replies)

/-- The end of `getFromNetwork_`: take the reply out of the cache.  `none` says
that nothing is cached under the key. -/
def takeReply (s : KVStore) (k : Key) : Option (Except Fault (Value × KVStore)) :=
  match s.msgCache.remove k with
  | none => none
  | some ([msg], msgCache) =>
    match msg.body with
    | .replyData _ val => some (.ok (val, { s with msgCache := msgCache }))
    | _ => some (.error .notReply)
  | some _ => some (.error .notOneMessage)

/-! ### Values -/

@[simp] theorem lookup_insert (s : KVStore) (k k' : Key) (data : Value) :
    (s.insert k data).lookup k' = if k.kStr = k'.kStr then some data else s.lookup k' :=
  Table.get_put s.kvMap k.kStr k'.kStr data

@[simp] theorem lookup_addToCache (s : KVStore) (k k' : Key) (msg : Message) :
    (s.addToCache_ k msg).lookup k' = s.lookup k' := by
  rw [addToCache_]
  split <;> rfl

@[simp] theorem storeId_addToCache (s : KVStore) (k : Key) (msg : Message) :
    (s.addToCache_ k msg).storeId = s.storeId := by
  rw [addToCache_]
  split <;> rfl

/-! ### The cache -/

@[simp] theorem cached_insert (s : KVStore) (k k' : Key) (data : Value) :
    (s.insert k data).cached k' = s.cached k' := rfl

@[simp] theorem cached_addToCache (s : KVStore) (k k' : Key) (msg : Message) :
    (s.addToCache_ k msg).cached k' = if k = k' then s.cached k ++ [msg] else s.cached k' := by
  rw [addToCache_, cached]
  split
  · rename_i arrMsgs h
    show ((s.msgCache.put k (arrMsgs ++ [msg])).get k').getD [] = _
    rw [Table.get_put, cached, h]
    split <;> rfl
  · rename_i h
    show ((s.msgCache.put k [msg]).get k').getD [] = _
    rw [Table.get_put, cached, h]
    split <;> rfl

theorem msgCache_addToCache (s : KVStore) (k k' : Key) (msg : Message) :
    (s.addToCache_ k msg).msgCache.get k' =
      if k = k' then some (s.cached k ++ [msg]) else s.msgCache.get k' := by
  rw [addToCache_, cached]
  split
  · rename_i arrMsgs h
    rw [h]
    exact Table.get_put _ _ _ _
  · rename_i h
    rw [h]
    exact Table.get_put _ _ _ _

/-- What a drain that got through has done: the messages of `k` are gone, each
was a waiter, and each has been answered with what is stored under `k`. -/
structure Drained (s s' : KVStore) (k : Key) (replies : List Message) : Prop where
  storeId : s'.storeId = s.storeId
  kvMap : s'.kvMap = s.kvMap
  msgCache : ∀ k', s'.msgCache.get k' = if k = k' then none else s.msgCache.get k'
  waiters : ∀ msg ∈ s.cached k, ∃ k', msg.body = .waitAndGet k'
  replies : ∃ val, (s.cached k ≠ [] → s.lookup k = some val) ∧
    replies = (s.cached k).map fun msg => Message.replyDataMsg k val s.storeId msg.sender

theorem answer_eq_ok {s : KVStore} {k : Key} {msg reply : Message}
    (h : s.answer k msg = .ok reply) : ∃ k' val, msg.body = .waitAndGet k' ∧
      s.lookup k = some val ∧ reply = Message.replyDataMsg k val s.storeId msg.sender := by
  rw [answer] at h
  split at h
  · rename_i k' hb
    split at h
    · rename_i val hv
      cases h
      exact ⟨k', val, hb, hv, rfl⟩
    · cases h
  · cases h

theorem mapM_answer_eq_ok {s : KVStore} {k : Key} {msgs replies : List Message}
    (h : msgs.mapM (s.answer k) = .ok replies) :
    (∀ msg ∈ msgs, ∃ k', msg.body = .waitAndGet k') ∧
      ∃ val, (msgs ≠ [] → s.lookup k = some val) ∧
        replies = msgs.map fun msg => Message.replyDataMsg k val s.storeId msg.sender := by
  induction msgs generalizing replies with
  | nil =>
    cases h
    exact ⟨by simp, ⟨[]⟩, by simp, rfl⟩
  | cons m msgs ih =>
    rw [List.mapM_cons] at h
    cases hm : s.answer k m with
    | error e =>
      rw [hm] at h
      cases h
    | ok r =>
      cases hms : msgs.mapM (s.answer k) with
      | error e =>
        rw [hm, hms] at h
        cases h
      | ok rs =>
        rw [hm, hms] at h
        cases h
        obtain ⟨k', val, hb, hv, hr⟩ := answer_eq_ok hm
        obtain ⟨hall, val', hv', hrs⟩ := ih hms
        refine ⟨?_, val, fun _ => hv, ?_⟩
        · intro msg hmem
          rcases List.mem_cons.mp hmem with rfl | hmem
          · exact ⟨k', hb⟩
          · exact hall msg hmem
        · rw [List.map_cons, hr]
          congr 1
          cases msgs with
          | nil => exact hrs
          | cons m' msgs =>
            have : val = val' := Option.some.inj (hv.symm.trans (hv' (by simp)))
            rw [this]
            exact hrs

/-- **A drain answers exactly the messages it removes.** -/
theorem tryToHandleCache_eq_ok {s s' : KVStore} {k : Key} {replies : List Message}
    (h : s.tryToHandleCache_ k = .ok (s', replies)) : Drained s s' k replies := by
  rw [tryToHandleCache_] at h
  split at h
  · rename_i hr
    cases h
    have hn : s.msgCache.get k = none := Table.remove_eq_none.mp hr
    have hc : s.cached k = [] := by rw [cached, hn]; rfl
    refine ⟨rfl, rfl, ?_, by simp [hc], ⟨[]⟩, by simp [hc], by simp [hc]⟩
    intro k'
    split
    · rename_i hk
      rw [← hk, hn]
    · rfl
  · rename_i arrMsgs msgCache hr
    obtain ⟨hg, hrem⟩ := Table.remove_eq_some hr
    have hc : s.cached k = arrMsgs := by rw [cached, hg]; rfl
    cases hm : arrMsgs.mapM (s.answer k) with
    | error e =>
      rw [hm] at h
      cases h
    | ok rs =>
      rw [hm] at h
      cases h
      obtain ⟨hall, hval⟩ := mapM_answer_eq_ok hm
      exact ⟨rfl, rfl, hrem, by rwa [hc], by rwa [hc]⟩

theorem cached_of_drained {s s' : KVStore} {k : Key} {replies : List Message}
    (h : Drained s s' k replies) (k' : Key) :
    s'.cached k' = if k = k' then [] else s.cached k' := by
  rw [cached, h.msgCache]
  split <;> rfl

/-- A drain fails only on a cached message that is no waiter, or with nothing
stored under its key. -/
theorem tryToHandleCache_ok {s : KVStore} {k : Key}
    (hw : ∀ msg ∈ s.cached k, ∃ k', msg.body = .waitAndGet k') (hv : (s.lookup k).isSome) :
    ∃ r, s.tryToHandleCache_ k = .ok r := by
  obtain ⟨val, hval⟩ := Option.isSome_iff_exists.mp hv
  have key : ∀ msgs : List Message, (∀ msg ∈ msgs, ∃ k', msg.body = .waitAndGet k') →
      ∃ rs, msgs.mapM (s.answer k) = .ok rs := by
    intro msgs
    induction msgs with
    | nil => exact fun _ => ⟨[], rfl⟩
    | cons m msgs ih =>
      intro hms
      obtain ⟨k', hb⟩ := hms m List.mem_cons_self
      obtain ⟨rs, hrs⟩ := ih fun m' hm' => hms m' (List.mem_cons_of_mem m hm')
      refine ⟨Message.replyDataMsg k val s.storeId m.sender :: rs, ?_⟩
      rw [List.mapM_cons, hrs, answer, hb]
      simp only [hval]
      rfl
  rw [tryToHandleCache_]
  split
  · exact ⟨_, rfl⟩
  · rename_i arrMsgs msgCache hr
    have hc : s.cached k = arrMsgs := by rw [cached, (Table.remove_eq_some hr).1]; rfl
    obtain ⟨rs, hrs⟩ := key arrMsgs (by rwa [hc] at hw)
    rw [hrs]
    exact ⟨_, rfl⟩

structure Taken (s s' : KVStore) (k : Key) (val : Value) : Prop where
  storeId : s'.storeId = s.storeId
  kvMap : s'.kvMap = s.kvMap
  msgCache : ∀ k', s'.msgCache.get k' = if k = k' then none else s.msgCache.get k'
  reply : ∃ msg k', s.cached k = [msg] ∧ msg.body = .replyData k' val

theorem takeReply_eq_ok {s s' : KVStore} {k : Key} {val : Value}
    (h : s.takeReply k = some (.ok (val, s'))) : Taken s s' k val := by
  rw [takeReply] at h
  split at h
  · cases h
  · rename_i msg msgCache hr
    obtain ⟨hg, hrem⟩ := Table.remove_eq_some hr
    split at h
    · rename_i k' v hb
      cases h
      exact ⟨rfl, rfl, hrem, msg, k', by rw [cached, hg]; rfl, hb⟩
    · cases h
  · cases h

theorem takeReply_eq_none {s : KVStore} {k : Key} :
    s.takeReply k = none ↔ s.msgCache.get k = none := by
  rw [← Table.remove_eq_none, takeReply]
  split
  · rename_i hr
    simp [hr]
  · rename_i hr
    rw [hr]
    split <;> simp
  · rename_i hr
    rw [hr]
    simp

/-- Taking a reply fails only on an array that is not one reply. -/
theorem takeReply_ok {s : KVStore} {k : Key} {msg : Message} {k' : Key} {val : Value}
    (hc : s.msgCache.get k = some [msg]) (hb : msg.body = .replyData k' val) :
    ∃ s', s.takeReply k = some (.ok (val, s')) := by
  rw [takeReply]
  split
  · rename_i hr
    rw [Table.remove_eq_none.mp hr] at hc
    cases hc
  · rename_i m msgCache hr
    rw [(Table.remove_eq_some hr).1] at hc
    cases hc
    rw [hb]
    exact ⟨_, rfl⟩
  · rename_i x hn hr
    obtain ⟨l, msgCache⟩ := x
    rw [(Table.remove_eq_some hr).1] at hc
    cases hc
    exact absurd rfl (hn msg msgCache)

theorem cached_of_taken {s s' : KVStore} {k : Key} {val : Value} (h : Taken s s' k val)
    (k' : Key) : s'.cached k' = if k = k' then [] else s.cached k' := by
  rw [cached, h.msgCache]
  split <;> rfl

end KVStore

end Eau2
