import Eau2.Network.Pseudo.Cluster

/-!
# Waiters and puts on one node

One node by itself: its application puts local keys, its receiver handles the
`WaitAndGetMsg`s and `PutMsg`s for local keys that an environment delivers.  The
receiver looks a key up and parks the waiter in two steps; a `put` stores and
drains in two others.  A waiter is stranded when the application's whole `put`
falls between the receiver's two steps: the lookup misses, the put stores, its
drain finds nothing, and then the waiter is parked (`waiter_stranded`).

That is the only way: `waiters_answered` says that a waiter for a stored key is
always answered in a run where no drain of the application overtakes the parking
of a waiter for the same key (`Orderly`).
-/

namespace Eau2

namespace Pseudo

open KVStore (Drained)

inductive Action
  | app
  | rcv
  | deliver (m : Message)
  deriving DecidableEq, Repr

/-- A `WaitAndGetMsg` or a `PutMsg` for a key homed on node `id`. -/
def isLocal (id : SizeT) (m : Message) : Bool :=
  match m.kind, m.body with
  | .WaitAndGet, .waitAndGet k => k.homeNode = id
  | .Put, .put k _ => k.homeNode = id
  | _, _ => false

def actStep (cfg : Config) (nd : Node) : Action → Option Node
  | .app =>
    match appStep cfg nd with
    | some (.ok (nd', _)) => some nd'
    | _ => none
  | .rcv =>
    match rcvStep cfg nd with
    | some (.ok (nd', _)) => some nd'
    | _ => none
  | .deliver m => if isLocal nd.kv.storeId m then some (nd.push [m]) else none

/-- The application of node `id` only puts, and only keys homed there. -/
def PutsLocally (cfg : Config) (id : SizeT) : Prop :=
  ∀ rs op, cfg.program id rs = some op → ∃ k v, op = .put k v ∧ k.homeNode = id

/-- Neither thread is in the middle of a `put` or of a message handler. -/
structure Settled (nd : Node) : Prop where
  app : (∀ op, nd.app ≠ .calling op) ∧ ∀ k, nd.app ≠ .draining k
  rcv : nd.rcv = .receiving

def AllAnswered (nd : Node) : Prop :=
  ∀ k m, m ∈ nd.kv.cached k → m.body = .waitAndGet k → nd.kv.lookup k = none

/-- The step is no drain of the application of a key for which the receiver is
about to park a waiter. -/
def Orderly (nd : Node) (a : Action) : Prop :=
  ∀ k m, a = .app → nd.app = .draining k → nd.rcv ≠ .parking k m

def isOrderly (nd : Node) (a : Action) : Bool :=
  match a, nd.app, nd.rcv with
  | .app, .draining k, .parking k' _ => k ≠ k'
  | _, _, _ => true

theorem orderly_of_isOrderly {nd : Node} {a : Action} (h : isOrderly nd a = true) :
    Orderly nd a := by
  rintro k m rfl ha hr
  simp [isOrderly, ha, hr] at h

/-- A waiter that is parked, or about to be, for a stored key is in reach of a
drain that is still to come. -/
structure WakeInv (id : SizeT) (nd : Node) : Prop where
  storeId : nd.kv.storeId = id
  queue : ∀ m ∈ nd.queue, isLocal id m = true
  handling : ∀ m, nd.rcv = .handling m → isLocal id m = true
  calling : ∀ op, nd.app = .calling op → ∃ k v, op = .put k v ∧ k.homeNode = id
  notAwaiting : ∀ k b, nd.app ≠ .awaiting k b
  parked_home : ∀ k, nd.kv.cached k ≠ [] → k.homeNode = id
  parked : ∀ k, nd.kv.cached k ≠ [] → (nd.kv.lookup k).isSome →
    nd.app = .draining k ∨ nd.rcv = .draining k
  parking : ∀ k m, nd.rcv = .parking k m →
    k.homeNode = id ∧ ((nd.kv.lookup k).isSome → nd.app = .draining k)

theorem wakeInv_new (id : SizeT) : WakeInv id (Node.new id) := by
  constructor <;> simp [Node.new, KVStore.new, KVStore.cached]

theorem lookup_insert_isSome {kv : KVStore} {id : SizeT} {k k' : Key} {v : Value}
    (hk : k.homeNode = id) (hk' : k'.homeNode = id)
    (h : ((kv.insert k v).lookup k').isSome) : k' = k ∨ (kv.lookup k').isSome := by
  rw [KVStore.lookup_insert] at h
  split at h
  · rename_i he
    refine Or.inl ?_
    obtain ⟨s, n⟩ := k
    obtain ⟨s', n'⟩ := k'
    simp only at hk hk' he
    rw [he, hk, hk']
  · exact Or.inr h

/-! ### The application -/

/-- An application that is not draining may go anywhere but into a read. -/
theorem WakeInv.appTo {id : SizeT} {nd : Node} (h : WakeInv id nd)
    (hn : ∀ k, nd.app ≠ .draining k) {pc : AppPc}
    (hcall : ∀ op, pc = .calling op → ∃ k v, op = .put k v ∧ k.homeNode = id)
    (hwait : ∀ k b, pc ≠ .awaiting k b) : WakeInv id { nd with app := pc } :=
  { h with
    calling := hcall
    notAwaiting := hwait
    parked := fun k hk hv => Or.inr ((h.parked k hk hv).resolve_left (hn k))
    parking := fun k m hr => ⟨(h.parking k m hr).1, fun hv =>
      absurd ((h.parking k m hr).2 hv) (hn k)⟩ }

theorem WakeInv.putLocal {id : SizeT} {nd : Node} (h : WakeInv id nd)
    (hn : ∀ k, nd.app ≠ .draining k) {k : Key} (hk : k.homeNode = id) (data : Value) :
    WakeInv id { nd with kv := nd.kv.insert k data, app := .draining k } :=
  { h with
    calling := by rintro op ⟨⟩
    notAwaiting := by rintro k b ⟨⟩
    parked := by
      intro k' hk' hv
      rcases lookup_insert_isSome hk (h.parked_home k' hk') hv with rfl | hv
      · exact Or.inl rfl
      · exact Or.inr ((h.parked k' hk' hv).resolve_left (hn k'))
    parking := by
      intro k' m hr
      refine ⟨(h.parking k' m hr).1, fun hv => ?_⟩
      rcases lookup_insert_isSome hk (h.parking k' m hr).1 hv with rfl | hv
      · rfl
      · exact absurd ((h.parking k' m hr).2 hv) (hn k') }

/-- What is parked after a drain was parked under another key. -/
theorem cached_of_drained_ne {kv kv' : KVStore} {k : Key} {replies : List Message}
    (hd : Drained kv kv' k replies) {k' : Key} (hk' : kv'.cached k' ≠ []) :
    k ≠ k' ∧ kv.cached k' ≠ [] := by
  rw [KVStore.cached_of_drained hd] at hk'
  split at hk'
  · exact absurd rfl hk'
  · exact ⟨by assumption, hk'⟩

theorem WakeInv.appDrain {id : SizeT} {nd : Node} (h : WakeInv id nd) {k : Key}
    (ha : nd.app = .draining k) (ho : Orderly nd .app) {kv : KVStore} {replies : List Message}
    (hd : Drained nd.kv kv k replies) : WakeInv id { nd.finish none with kv := kv } := by
  have hlook : ∀ k', kv.lookup k' = nd.kv.lookup k' := fun k' => by
    rw [KVStore.lookup, hd.kvMap, KVStore.lookup]
  exact { h with
    storeId := hd.storeId.trans h.storeId
    calling := by rintro op ⟨⟩
    notAwaiting := by rintro k b ⟨⟩
    parked_home := fun k' hk' => h.parked_home k' (cached_of_drained_ne hd hk').2
    parked := by
      intro k' hk' hv
      obtain ⟨hne, hk'⟩ := cached_of_drained_ne hd hk'
      refine Or.inr ((h.parked k' hk' (hlook k' ▸ hv)).resolve_left fun hd' => ?_)
      rw [ha] at hd'
      cases hd'
      exact hne rfl
    parking := by
      intro k' m hr
      refine ⟨(h.parking k' m hr).1, fun hv => ?_⟩
      have hd' := (h.parking k' m hr).2 (hlook k' ▸ hv)
      rw [ha] at hd'
      cases hd'
      -- the waiter would be parked behind the drain
      exact absurd hr (ho k m rfl ha) }

theorem WakeInv.appStep {cfg : Config} {id : SizeT} (hc : PutsLocally cfg id) {nd nd' : Node}
    {out : List Message} (h : WakeInv id nd) (ho : Orderly nd .app)
    (hs : AppStep cfg nd nd' out) : WakeInv id nd' := by
  have hsid := h.storeId
  have hnd : ∀ {pc : AppPc}, nd.app = pc → (∀ k, pc ≠ .draining k) → ∀ k, nd.app ≠ .draining k :=
    fun ha hpc k => by rw [ha]; exact hpc k
  cases hs with
  | call op ha hp =>
    rw [hsid] at hp
    refine h.appTo (hnd ha (by simp)) ?_ (by simp)
    rintro op' ⟨⟩
    exact hc _ _ hp
  | ret ha hp => exact h.appTo (hnd ha (by simp)) (by simp) (by simp)
  | putLocal k data ha hk => exact h.putLocal (hnd ha (by simp)) (hk.trans hsid) data
  | drain k kv replies ha hl hd ht => exact h.appDrain ha ho hd
  | done ha ht => exact h.appTo (hnd ha (by simp)) (by simp) (by simp)
  | join ha hr => exact h.appTo (hnd ha (by simp)) (by simp) (by simp)
  | putRemote k data ha hk ht =>
    obtain ⟨k', v', he, hk'⟩ := h.calling _ ha
    cases he
    exact absurd (hk'.trans hsid.symm) hk
  | getLocal k b r ha hk hv hr =>
    obtain ⟨k', v', he, -⟩ := h.calling _ ha
    cases he
  | ask k b ha hk ht =>
    obtain ⟨k', v', he, -⟩ := h.calling _ ha
    cases he
  | take k b val kv ha hl ht => exact absurd ha (h.notAwaiting k b)
  | giveUp k ha hl hg => exact absurd ha (h.notAwaiting k false)

/-! ### The receiver -/

/-- A receiver that is not draining may go where it neither handles nor parks. -/
theorem WakeInv.rcvTo {id : SizeT} {nd : Node} (h : WakeInv id nd)
    (hn : ∀ k, nd.rcv ≠ .draining k) {pc : RcvPc} (hhandle : ∀ m, pc ≠ .handling m)
    (hpark : ∀ k m, pc ≠ .parking k m) : WakeInv id { nd with rcv := pc } :=
  { h with
    handling := fun m hm => absurd hm (hhandle m)
    parked := fun k hk hv => Or.inl ((h.parked k hk hv).resolve_right (hn k))
    parking := fun k m hm => absurd hm (hpark k m) }

theorem WakeInv.rcvPut {id : SizeT} {nd : Node} (h : WakeInv id nd)
    (hn : ∀ k, nd.rcv ≠ .draining k) {k : Key} (hk : k.homeNode = id) (data : Value) :
    WakeInv id { nd with kv := nd.kv.insert k data, rcv := .draining k } :=
  { h with
    handling := by rintro m ⟨⟩
    parked := by
      intro k' hk' hv
      rcases lookup_insert_isSome hk (h.parked_home k' hk') hv with rfl | hv
      · exact Or.inr rfl
      · exact Or.inl ((h.parked k' hk' hv).resolve_right (hn k'))
    parking := by rintro k' m ⟨⟩ }

theorem WakeInv.park {id : SizeT} {nd : Node} (h : WakeInv id nd) {k : Key} {m : Message}
    (hr : nd.rcv = .parking k m) :
    WakeInv id { nd with kv := nd.kv.addToCache_ k m, rcv := .receiving } := by
  obtain ⟨hk, hdrain⟩ := h.parking k m hr
  have hcached : ∀ k', (nd.kv.addToCache_ k m).cached k' ≠ [] → k = k' ∨ nd.kv.cached k' ≠ [] := by
    intro k' hk'
    rw [KVStore.cached_addToCache] at hk'
    split at hk'
    · exact Or.inl (by assumption)
    · exact Or.inr hk'
  exact { h with
    storeId := (KVStore.storeId_addToCache _ _ _).trans h.storeId
    handling := by rintro m' ⟨⟩
    parked_home := by
      intro k' hk'
      rcases hcached k' hk' with rfl | hk'
      · exact hk
      · exact h.parked_home k' hk'
    parked := by
      intro k' hk' hv
      replace hv : (nd.kv.lookup k').isSome := by
        rw [← KVStore.lookup_addToCache nd.kv k k' m]
        exact hv
      rcases hcached k' hk' with rfl | hk'
      · exact Or.inl (hdrain hv)
      · refine Or.inl ((h.parked k' hk' hv).resolve_right fun hd => ?_)
        rw [hr] at hd
        cases hd
    parking := by rintro k' m' ⟨⟩ }

theorem WakeInv.rcvDrain {id : SizeT} {nd : Node} (h : WakeInv id nd) {k : Key}
    (hr : nd.rcv = .draining k) {kv : KVStore} {replies : List Message}
    (hd : Drained nd.kv kv k replies) : WakeInv id { nd with kv := kv, rcv := .receiving } := by
  exact { h with
    storeId := hd.storeId.trans h.storeId
    handling := by rintro m ⟨⟩
    parked_home := fun k' hk' => h.parked_home k' (cached_of_drained_ne hd hk').2
    parked := by
      intro k' hk' hv
      obtain ⟨hne, hk'⟩ := cached_of_drained_ne hd hk'
      have hv' : (nd.kv.lookup k').isSome := by
        rw [KVStore.lookup, ← hd.kvMap]
        exact hv
      refine Or.inl ((h.parked k' hk' hv').resolve_right fun hd' => ?_)
      rw [hr] at hd'
      cases hd'
      exact hne rfl
    parking := by rintro k' m ⟨⟩ }

theorem isLocal_cases {id : SizeT} {m : Message} (h : isLocal id m = true) :
    (m.kind = .WaitAndGet ∧ ∃ k, m.body = .waitAndGet k ∧ k.homeNode = id) ∨
      (m.kind = .Put ∧ ∃ k v, m.body = .put k v ∧ k.homeNode = id) := by
  rw [isLocal] at h
  split at h
  · rename_i k hk hb
    exact Or.inl ⟨hk, k, hb, of_decide_eq_true h⟩
  · rename_i k v hk hb
    exact Or.inr ⟨hk, k, v, hb, of_decide_eq_true h⟩
  · cases h

theorem WakeInv.rcvStep {cfg : Config} {id : SizeT} {nd nd' : Node} {out : List Message}
    (h : WakeInv id nd) (hs : RcvStep cfg nd nd' out) : WakeInv id nd' := by
  have hsid := h.storeId
  have hnd : ∀ {pc : RcvPc}, nd.rcv = pc → (∀ k, pc ≠ .draining k) → ∀ k, nd.rcv ≠ .draining k :=
    fun hr hpc k => by rw [hr]; exact hpc k
  cases hs with
  | receive m queue hr hq =>
    have hqueue := h.queue
    rw [hq] at hqueue
    exact { h with
      queue := fun m' hm' => hqueue m' (List.mem_cons_of_mem m hm')
      handling := by
        rintro m' ⟨⟩
        exact hqueue m List.mem_cons_self
      parked := fun k hk hv => Or.inl ((h.parked k hk hv).resolve_right (hnd hr (by simp) k))
      parking := by rintro k m' ⟨⟩ }
  | serve m k val hr hb hk hv => exact h.rcvTo (hnd hr (by simp)) (by simp) (by simp)
  | miss m k hr hb hk hv =>
    exact { h with
      handling := by rintro m' ⟨⟩
      parked := fun k hk hv => Or.inl ((h.parked k hk hv).resolve_right (hnd hr (by simp) k))
      parking := by
        rintro k' m' ⟨⟩
        refine ⟨hk.trans hsid, fun hsome => ?_⟩
        rw [hv] at hsome
        cases hsome }
  | put m k data hr hb hk => exact h.rcvPut (hnd hr (by simp)) (hk.trans hsid) data
  | reply m hr ht => exact h.rcvTo (hnd hr (by simp)) (by simp) (by simp)
  | park k m hr hl => exact h.park hr
  | drain k kv replies hr hl hd ht => exact h.rcvDrain hr hd
  | broadcast i hr hi => exact h.rcvTo (hnd hr (by simp)) (by simp) (by simp)
  | broadcastEnd i hr hi => exact h.rcvTo (hnd hr (by simp)) (by simp) (by simp)
  | addReply m k val hr hb hl =>
    rcases isLocal_cases (h.handling m hr) with ⟨-, k', he, -⟩ | ⟨-, k', v', he, -⟩ <;>
      rw [hb] at he <;> cases he
  | handleDone m hr hb hz hm =>
    rcases isLocal_cases (h.handling m hr) with ⟨-, k', he, -⟩ | ⟨-, k', v', he, -⟩ <;>
      rw [hb] at he <;> cases he
  | handleTeardown m hr hk =>
    rcases isLocal_cases (h.handling m hr) with ⟨he, -⟩ | ⟨he, -⟩ <;> rw [hk] at he <;> cases he
  | skip m hr hk =>
    rcases isLocal_cases (h.handling m hr) with ⟨he, -⟩ | ⟨he, -⟩ <;>
      rcases hk with hk | hk <;> rw [hk] at he <;> cases he

/-! ### Runs -/

theorem WakeInv.actStep {cfg : Config} {id : SizeT} (hc : PutsLocally cfg id) {nd nd' : Node}
    {a : Action} (h : WakeInv id nd) (ho : Orderly nd a) (hs : actStep cfg nd a = some nd') :
    WakeInv id nd' := by
  cases a with
  | app =>
    simp only [Pseudo.actStep] at hs
    split at hs
    · rename_i nd₁ out he
      cases hs
      exact h.appStep hc ho (appStep_cases he)
    · cases hs
  | rcv =>
    simp only [Pseudo.actStep] at hs
    split at hs
    · rename_i nd₁ out he
      cases hs
      exact h.rcvStep (rcvStep_cases he)
    · cases hs
  | deliver m =>
    simp only [Pseudo.actStep] at hs
    split at hs
    · rename_i hm
      cases hs
      rw [h.storeId] at hm
      refine { h with queue := fun m' hm' => ?_ }
      rcases List.mem_append.mp hm' with hm' | hm'
      · exact h.queue m' hm'
      · rw [List.mem_singleton.mp hm']
        exact hm
    · cases hs

abbrev actRun (cfg : Config) (id : SizeT) (acts : List Action) : Option Node :=
  Schedule.run (actStep cfg) (Node.new id) acts

def AllOrderly (cfg : Config) (id : SizeT) (acts : List Action) : Prop :=
  ∀ acts₁ a nd, acts₁ ++ [a] <+: acts → actRun cfg id acts₁ = some nd → Orderly nd a

theorem AllOrderly.wakeInv {cfg : Config} {id : SizeT} (hc : PutsLocally cfg id)
    {acts : List Action} {nd : Node} (hr : actRun cfg id acts = some nd)
    (ho : AllOrderly cfg id acts) : WakeInv id nd := by
  revert ho
  refine Schedule.run_induction (P := fun acts nd => AllOrderly cfg id acts → WakeInv id nd)
    (fun _ => wakeInv_new id) ?_ hr
  intro acts nd a nd' hrun ih hs ho
  have hprev : AllOrderly cfg id acts := fun acts₁ a₁ nd₁ hp =>
    ho acts₁ a₁ nd₁ (hp.trans (List.prefix_append acts [a]))
  exact (ih hprev).actStep hc (ho acts a nd (List.prefix_refl _) hrun) hs

/-- **No waiter is lost in an orderly run.** Whenever neither thread is in the
middle of anything, no waiter is parked for a stored key. -/
theorem waiters_answered (cfg : Config) (id : SizeT) (hc : PutsLocally cfg id)
    (acts : List Action) (ho : AllOrderly cfg id acts) (nd : Node)
    (hr : actRun cfg id acts = some nd) (hset : Settled nd) : AllAnswered nd := by
  have h := ho.wakeInv hc hr
  intro k m hm hb
  cases hv : nd.kv.lookup k with
  | none => rfl
  | some v =>
    rcases h.parked k (List.ne_nil_of_mem hm) (by rw [hv]; rfl) with hd | hd
    · exact absurd hd (hset.app.2 k)
    · rw [hset.rcv] at hd
      cases hd

/-- Node `1` puts one key of its own. -/
def wakeCfg : Config where
  numNodes := 2
  serverIndex := 0
  program _ rs := if rs = [] then some (.put ⟨⟨[97], CStr.nulFree_a⟩, 1⟩ ⟨[7]⟩) else none

/-- Node `0` waits for that key. -/
def waiter : Message := Message.waitAndGetMsg ⟨⟨[97], CStr.nulFree_a⟩, 1⟩ 0 1

/-- The waiter is parked before the put stores. -/
def orderlyActs : List Action :=
  [.deliver waiter, .rcv, .rcv, .rcv, .app, .app, .app]

/-- The whole put falls between the receiver's lookup and its parking. -/
def strandingActs : List Action :=
  [.deliver waiter, .rcv, .rcv, .app, .app, .app, .rcv]

theorem putsLocally_wakeCfg : PutsLocally wakeCfg 1 := by
  intro rs op h
  simp only [wakeCfg] at h
  split at h
  · cases h
    exact ⟨_, _, rfl, rfl⟩
  · cases h

theorem settled_of_running {nd : Node} (ha : nd.app = .running) (hr : nd.rcv = .receiving) :
    Settled nd :=
  ⟨⟨by simp [ha], by simp [ha]⟩, hr⟩

theorem waiters_answered_orderly :
    AllAnswered ((actRun wakeCfg 1 orderlyActs).get (by decide)) :=
  waiters_answered wakeCfg 1 putsLocally_wakeCfg orderlyActs
    (fun _ _ _ hp hr => orderly_of_isOrderly
      (Schedule.of_always (p := isOrderly) (by decide) hp hr))
    _ (Option.some_get _).symm (settled_of_running (by decide) (by decide))

/-- **A stranded waiter.** Nothing is left to do, the key is stored, and the waiter
is still parked. -/
theorem waiter_stranded : ∃ nd, actRun wakeCfg 1 strandingActs = some nd ∧ Settled nd ∧
    ¬ AllAnswered nd := by
  refine ⟨(actRun wakeCfg 1 strandingActs).get (by decide), (Option.some_get _).symm,
    settled_of_running (by decide) (by decide), ?_⟩
  intro h
  have hnone := h ⟨⟨[97], by decide⟩, 1⟩ waiter (by decide) rfl
  exact absurd hnone (by decide)

end Pseudo

end Eau2
