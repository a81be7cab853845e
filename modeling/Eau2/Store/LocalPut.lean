import Eau2.Store.KVStore

/-!
# Waits and local puts

`KVStore::put`, and the runs of a store that is told of waiters and puts values under its
own keys.  Who waits on a key is a fold over the calls (`waiters`): a put of the key
starts it over.

* `run_follows`: a run never fails, and the cache holds the waiters.
* `local_put_answers`: **a local put answers all its waiters and nobody else**.
-/

namespace Eau2.KVStore

/-- `addMsgWaitingOn`, of a `WaitAndGetMsg(key, sender, target)`. -/
def addMsgWaitingOn (s : KVStore) (key : Key) (sender target : SizeT) : KVStore :=
  s.addToCache_ key (Message.waitAndGetMsg key sender target)

def put (s : KVStore) (k : Key) (data : Value) : Except Fault (KVStore × List Message) :=
  if k.getNode ≠ s.storeId then .ok (s, [Message.putMsg k data s.storeId k.getNode])
  else (s.insert k data).tryToHandleCache_ k

/-- A call of the store. -/
inductive Call
  | addMsgWaitingOn (key : Key) (sender target : SizeT)
  | put (k : Key) (data : Value)
  deriving DecidableEq

def Call.Local (id : SizeT) : Call → Prop
  | .addMsgWaitingOn _ _ _ => True
  | .put k _ => k.getNode = id

def call (s : KVStore) : Call → Except Fault KVStore
  | .addMsgWaitingOn key sender target => .ok (s.addMsgWaitingOn key sender target)
  | .put k data => Prod.fst <$> s.put k data

def run (id : SizeT) (calls : List Call) : Except Fault KVStore := calls.foldlM call (new id)

/-! ### Who waits -/

def arrive (k : Key) (waiting : List Message) : Call → List Message
  | .addMsgWaitingOn key sender target =>
    if key = k then waiting ++ [Message.waitAndGetMsg key sender target] else waiting
  | .put key _ => if key = k then [] else waiting

/-- The messages that wait on `k` after the calls, in the order they arrived. -/
def waiters (calls : List Call) (k : Key) : List Message := calls.foldl (arrive k) []

theorem waiters_concat (calls : List Call) (c : Call) (k : Key) :
    waiters (calls ++ [c]) k = arrive k (waiters calls k) c := by
  rw [waiters, List.foldl_append]
  rfl

theorem mem_waiters {calls : List Call} {k : Key} {msg : Message} (h : msg ∈ waiters calls k) :
    msg.body = .waitAndGet k := by
  induction calls using List.reverseRecOn with
  | nil => cases h
  | append_singleton calls c ih =>
    rw [waiters_concat] at h
    cases c with
    | addMsgWaitingOn key sender target =>
      rw [arrive] at h
      split at h
      · rename_i hkey
        rcases List.mem_append.mp h with h | h
        · exact ih h
        · rw [List.mem_singleton.mp h, hkey]
          rfl
      · exact ih h
    | put key data =>
      rw [arrive] at h
      split at h
      · cases h
      · exact ih h

/-! ### Runs -/

structure Follows (id : SizeT) (calls : List Call) (s : KVStore) : Prop where
  storeId : s.storeId = id
  cached : ∀ k, s.cached k = waiters calls k

theorem follows_new (id : SizeT) : Follows id [] (new id) := by
  refine ⟨rfl, fun k => ?_⟩
  show ((Table.new : Table Key (List Message)).get k).getD [] = []
  rw [Table.get_new]
  rfl

/-- **A local put stores the value, answers the waiters of its key and forgets them.** -/
theorem Follows.put {id : SizeT} {calls : List Call} {s : KVStore} (h : Follows id calls s)
    {k : Key} (hk : k.getNode = id) (v : Value) : ∃ s',
      s.put k v = .ok (s',
        (waiters calls k).map fun msg => Message.replyDataMsg k v id msg.sender) ∧
      s'.kvMap = (s.insert k v).kvMap ∧ s'.storeId = id ∧
      ∀ k', s'.cached k' = if k = k' then [] else s.cached k' := by
  have hlookup : (s.insert k v).lookup k = some v := by rw [lookup_insert, if_pos rfl]
  have hwaiters : ∀ msg ∈ (s.insert k v).cached k, ∃ k', msg.body = .waitAndGet k' := by
    intro msg hmsg
    rw [cached_insert, h.cached] at hmsg
    exact ⟨k, mem_waiters hmsg⟩
  obtain ⟨⟨s', replies⟩, hdrain⟩ :=
    tryToHandleCache_ok hwaiters (by rw [hlookup]; exact Option.isSome_some)
  have hdrained := tryToHandleCache_eq_ok hdrain
  have hput : s.put k v = .ok (s', replies) := by
    rw [KVStore.put, if_neg (by rw [h.storeId]; exact not_not_intro hk), hdrain]
  obtain ⟨val, hval, hreplies⟩ := hdrained.replies
  refine ⟨s', ?_, hdrained.kvMap, hdrained.storeId.trans h.storeId,
    fun k' => (cached_of_drained hdrained k').trans rfl⟩
  rw [hput, hreplies, cached_insert, h.cached, show (s.insert k v).storeId = id from h.storeId]
  rw [cached_insert, h.cached, hlookup] at hval
  -- with waiters there is one value to reply with
  cases hw : waiters calls k with
  | nil => rfl
  | cons msg msgs =>
    rw [Option.some.inj (hval (by rw [hw]; exact List.cons_ne_nil _ _))]

theorem Follows.call {id : SizeT} {calls : List Call} {s : KVStore} (h : Follows id calls s)
    {c : Call} (hc : c.Local id) : ∃ s', s.call c = .ok s' ∧ Follows id (calls ++ [c]) s' := by
  cases c with
  | addMsgWaitingOn key sender target =>
    refine ⟨_, rfl, (storeId_addToCache _ _ _).trans h.storeId, fun k => ?_⟩
    rw [addMsgWaitingOn, cached_addToCache, h.cached, h.cached, waiters_concat, arrive]
    split
    · rename_i hkey
      rw [hkey]
    · rfl
  | put k data =>
    obtain ⟨s', hput, -, hid, hcached⟩ := h.put hc data
    refine ⟨s', ?_, hid, fun k' => ?_⟩
    · rw [KVStore.call, hput]
      rfl
    · rw [hcached, h.cached, waiters_concat, arrive]

theorem run_follows {id : SizeT} {calls : List Call} (h : ∀ c ∈ calls, c.Local id) :
    ∃ s, run id calls = .ok s ∧ Follows id calls s := by
  induction calls using List.reverseRecOn with
  | nil => exact ⟨new id, rfl, follows_new id⟩
  | append_singleton calls c ih =>
    obtain ⟨s, hrun, hs⟩ := ih fun c' hc' => h c' (List.mem_append_left _ hc')
    obtain ⟨s', hcall, hs'⟩ := hs.call (h c (List.mem_append_right _ (List.mem_singleton_self c)))
    refine ⟨s', ?_, hs'⟩
    rw [run] at hrun ⊢
    rw [List.foldlM_append, hrun]
    show [c].foldlM KVStore.call s = _
    rw [List.foldlM_cons, hcall]
    rfl

/-- **A local put answers all its waiters and nobody else**, whatever was waited on and
put before. -/
theorem local_put_answers {id : SizeT} {calls : List Call} (h : ∀ c ∈ calls, c.Local id) :
    ∃ s, run id calls = .ok s ∧ ∀ (k : Key) (v : Value), k.getNode = id → ∃ s',
      s.put k v = .ok (s',
        (waiters calls k).map fun msg => Message.replyDataMsg k v id msg.sender) ∧
      s'.lookup k = some v ∧ s.cached k = waiters calls k ∧ s'.cached k = [] ∧
      ∀ k', k' ≠ k → s'.cached k' = s.cached k' ∧
        (k'.getNode = id → s'.lookup k' = s.lookup k') := by
  obtain ⟨s, hrun, hs⟩ := run_follows h
  refine ⟨s, hrun, fun k v hk => ?_⟩
  obtain ⟨s', hput, hmap, -, hcached⟩ := hs.put hk v
  have hlookup : ∀ k', s'.lookup k' = (s.insert k v).lookup k' := by
    intro k'
    rw [lookup, lookup, hmap]
  refine ⟨s', hput, ?_, hs.cached k, ?_, fun k' hne => ⟨?_, fun hk' => ?_⟩⟩
  · rw [hlookup, lookup_insert, if_pos rfl]
  · rw [hcached, if_pos rfl]
  · rw [hcached, if_neg hne.symm]
  · rw [hlookup, lookup_insert, if_neg]
    intro hstr
    refine hne ?_
    cases k
    cases k'
    simp_all [Key.getNode]

/-- Two nodes wait on `a` of node `0`, one on `b`. -/
theorem local_put_answers_two : ∃ s,
    run 0 [.addMsgWaitingOn ⟨⟨[97], CStr.nulFree_a⟩, 0⟩ 1 0,
      .addMsgWaitingOn ⟨⟨[98], CStr.nulFree_b⟩, 0⟩ 1 0,
      .addMsgWaitingOn ⟨⟨[97], CStr.nulFree_a⟩, 0⟩ 2 0] = .ok s ∧
    ∃ s', s.put ⟨⟨[97], CStr.nulFree_a⟩, 0⟩ ⟨[7]⟩ = .ok (s',
      [Message.replyDataMsg ⟨⟨[97], CStr.nulFree_a⟩, 0⟩ ⟨[7]⟩ 0 1,
        Message.replyDataMsg ⟨⟨[97], CStr.nulFree_a⟩, 0⟩ ⟨[7]⟩ 0 2]) := by
  have hlocal : ∀ c ∈ [Call.addMsgWaitingOn ⟨⟨[97], CStr.nulFree_a⟩, 0⟩ 1 0,
      .addMsgWaitingOn ⟨⟨[98], CStr.nulFree_b⟩, 0⟩ 1 0,
      .addMsgWaitingOn ⟨⟨[97], CStr.nulFree_a⟩, 0⟩ 2 0], c.Local 0 := by
    intro c hc
    fin_cases hc <;> trivial
  obtain ⟨s, hrun, hput⟩ := local_put_answers hlocal
  obtain ⟨s', hs', -⟩ := hput ⟨⟨[97], CStr.nulFree_a⟩, 0⟩ ⟨[7]⟩ rfl
  exact ⟨s, hrun, s', hs'⟩

end Eau2.KVStore
