import Eau2.Network.Pseudo.Invariant

/-!
# Where values and messages come from

A value in a store was there before, or the step stored it; a message on a node
was there before, or the step made it (`Fresh`): a put or a request the
application was about to make, a reply to a request the node was about to
answer (`Answering`), or a message of the teardown.

* `NodeStep.stored_origin`, `NodeStep.origin`: where a step takes what it stores
  and what it sends, on its own node.
* `Moved.origin`: the same for all the nodes.
-/

namespace Eau2

namespace Pseudo

open KVStore (Drained Taken)

/-! ### Origins, one step back -/

def Storing (nd : Node) (k : Key) (v : Value) : Role → Prop
  | .app => nd.app = .calling (.put k v)
  | .rcv => ∃ m, nd.rcv = .handling m ∧ m.body = .put k v

theorem lookup_insert_eq_some {kv : KVStore} {k : Key} {v w : Value} {s : CStr}
    (h : (kv.insert k v).kvMap.get s = some w) :
    kv.kvMap.get s = some w ∨ (k.kStr = s ∧ v = w) := by
  have hput : (kv.insert k v).kvMap.get s = if k.kStr = s then some v else kv.kvMap.get s :=
    Table.get_put _ _ _ _
  rw [hput] at h
  split at h
  · rename_i hk
    cases h
    exact Or.inr ⟨hk, rfl⟩
  · exact Or.inl h

/-- **What a store holds after a step it held before, or the step stored it.** -/
theorem NodeStep.stored_origin {cfg : Config} {id : SizeT} {nd nd' : Node} {r : Role}
    {out : List Message} (h : NodeOk cfg id nd) (hs : NodeStep cfg nd r nd' out) {s : CStr}
    {v : Value} (hv : nd'.kv.kvMap.get s = some v) :
    nd.kv.kvMap.get s = some v ∨ Storing nd ⟨s, id⟩ v r := by
  have hsid := h.storeId
  cases r with
  | app =>
    replace hs : AppStep cfg nd nd' out := hs
    cases hs with
    | putLocal k data ha hk =>
      rcases lookup_insert_eq_some hv with hv | ⟨rfl, rfl⟩
      · exact Or.inl hv
      · refine Or.inr ?_
        have hkey : (⟨k.kStr, id⟩ : Key) = k := by rw [← hsid, ← hk]
        show nd.app = _
        rw [hkey, ha]
    | drain k kv replies ha hl hd ht => exact Or.inl (by rwa [← hd.kvMap])
    | take k b val kv ha hl ht => exact Or.inl (by rwa [← ht.kvMap])
    | _ => exact Or.inl hv
  | rcv =>
    replace hs : RcvStep cfg nd nd' out := hs
    cases hs with
    | put m k data hr hb hk =>
      rcases lookup_insert_eq_some hv with hv | ⟨rfl, rfl⟩
      · exact Or.inl hv
      · refine Or.inr ⟨m, hr, ?_⟩
        have hkey : (⟨k.kStr, id⟩ : Key) = k := by rw [← hsid, ← hk]
        rw [hkey, hb]
    | addReply m k val hr hb hl =>
      have he := KVStore.lookup_addToCache nd.kv k ⟨s, id⟩ m
      exact Or.inl (he.symm.trans hv)
    | park k m hr hl =>
      have he := KVStore.lookup_addToCache nd.kv k ⟨s, id⟩ m
      exact Or.inl (he.symm.trans hv)
    | drain k kv replies hr hl hd ht => exact Or.inl (by rwa [← hd.kvMap])
    | _ => exact Or.inl hv

theorem NodeStep.lookup_isSome {cfg : Config} {nd nd' : Node} {r : Role} {out : List Message}
    (hs : NodeStep cfg nd r nd' out) {k : Key} (h : (nd.kv.lookup k).isSome) : (nd'.kv.lookup k).isSome := by
  have hinsert : ∀ k' v, ((nd.kv.insert k' v).lookup k).isSome := by
    intro k' v
    rw [KVStore.lookup_insert]
    split
    · rfl
    · exact h
  cases r with
  | app =>
    replace hs : AppStep cfg nd nd' out := hs
    cases hs with
    | putLocal k' data ha hk => exact hinsert k' data
    | drain k' kv replies ha hl hd ht =>
      show (kv.lookup k).isSome
      rwa [KVStore.lookup, hd.kvMap]
    | take k' b val kv ha hl ht =>
      show (kv.lookup k).isSome
      rwa [KVStore.lookup, ht.kvMap]
    | _ => exact h
  | rcv =>
    replace hs : RcvStep cfg nd nd' out := hs
    cases hs with
    | addReply m k' val hr hb hl => exact (KVStore.lookup_addToCache nd.kv k' k m).symm ▸ h
    | put m k' data hr hb hk => exact hinsert k' data
    | park k' m hr hl => exact (KVStore.lookup_addToCache nd.kv k' k m).symm ▸ h
    | drain k' kv replies hr hl hd ht =>
      show (kv.lookup k).isSome
      rwa [KVStore.lookup, hd.kvMap]
    | _ => exact h

/-- The messages of a node outside its cache. -/
def letters (nd : Node) : List Message := nd.queue ++ nd.rcv.message

theorem mem_mail {nd : Node} {k : Key} {m : Message} :
    m ∈ mail nd k ↔ m ∈ letters nd ∨ m ∈ nd.kv.cached k := List.mem_append

/-- Node `id` is about to answer the request `q` for `k` with what it has stored:
its receiver is handling the request, or the request is parked and a drain of
`k` reaches it. -/
structure Answering (id : SizeT) (nd : Node) (k : Key) (q : Message) (v : Value) : Prop where
  home : k.homeNode = id
  stored : nd.kv.lookup k = some v
  request : (nd.rcv = .handling q ∧ (q.body = .getData k ∨ q.body = .waitAndGet k)) ∨
    (q ∈ nd.kv.cached k ∧ q.body = .waitAndGet k)

/-- The messages a step of node `id` can make. -/
inductive Fresh (cfg : Config) (id : SizeT) (nd nd' : Node) : Message → Prop
  | put (k : Key) (v : Value) : nd.app = .calling (.put k v) →
      Fresh cfg id nd nd' (Message.putMsg k v id k.homeNode)
  | request (k : Key) (b : Bool) : nd.app = .calling (.getValue k b) → nd'.app = .awaiting k b →
      Fresh cfg id nd nd' (request k b id)
  | reply (k : Key) (q : Message) (v : Value) : Answering id nd k q v →
      Fresh cfg id nd nd' (Message.replyDataMsg k v id q.sender)
  | done : nd.app = .returned →
      Fresh cfg id nd nd' (Message.doneMsg id cfg.serverIndex)
  | teardown (i : SizeT) : nd.rcv = .tearingDown i →
      Fresh cfg id nd nd' (Message.teardownMsg id i)

theorem NodeOk.fresh_drain {cfg : Config} {id : SizeT} {nd nd' : Node} (h : NodeOk cfg id nd)
    {kv : KVStore} {k : Key} {replies : List Message} (hk : k.homeNode = id)
    (hd : Drained nd.kv kv k replies) {m : Message} (hm : m ∈ replies) :
    Fresh cfg id nd nd' m := by
  obtain ⟨val, hval, he⟩ := hd.replies
  rw [he] at hm
  obtain ⟨q, hq, rfl⟩ := List.mem_map.mp hm
  rw [h.storeId]
  exact .reply k q val ⟨hk, hval (List.ne_nil_of_mem hq), Or.inr ⟨hq, h.cached_waiter hk hq⟩⟩

theorem mem_mail_of_erase {nd nd' : Node} {k k' : Key} {m : Message} (hm : m ∈ mail nd' k)
    (hlet : m ∈ letters nd' → m ∈ letters nd)
    (he : nd'.kv.cached k = if k' = k then [] else nd.kv.cached k) : m ∈ mail nd k := by
  rcases mem_mail.mp hm with hm | hm
  · exact mem_mail.mpr (Or.inl (hlet hm))
  · rw [he] at hm
    split at hm
    · cases hm
    · exact mem_mail.mpr (Or.inr hm)

theorem AppStep.origin {cfg : Config} {id : SizeT} {nd nd' : Node} {out : List Message}
    (h : NodeOk cfg id nd) (hs : AppStep cfg nd nd' out) {k : Key} {m : Message}
    (hm : m ∈ mail nd' k ∨ m ∈ out) : m ∈ mail nd k ∨ Fresh cfg id nd nd' m := by
  have hsid := h.storeId
  have happ := h.app
  cases hs with
  | putRemote k' data ha hk ht =>
    refine hm.imp (fun hm => hm) fun hm => ?_
    rw [List.mem_singleton.mp hm, hsid]
    exact .put k' data ha
  | drain k' kv replies ha hl hd ht =>
    rw [ha] at happ
    rcases hm with hm | hm
    · exact Or.inl (mem_mail_of_erase hm (fun hlet => hlet) (KVStore.cached_of_drained hd k))
    · exact Or.inr (h.fresh_drain happ.1 hd hm)
  | ask k' b ha hk ht =>
    refine hm.imp (fun hm => hm) fun hm => ?_
    rw [List.mem_singleton.mp hm, hsid]
    exact .request k' b ha rfl
  | take k' b val kv ha hl ht =>
    exact Or.inl (mem_mail_of_erase (hm.resolve_right List.not_mem_nil) (fun hlet => hlet)
      (KVStore.cached_of_taken ht k))
  | done ha ht =>
    refine hm.imp (fun hm => hm) fun hm => ?_
    rw [List.mem_singleton.mp hm, hsid]
    exact .done ha
  | _ => exact Or.inl (hm.resolve_right List.not_mem_nil)

theorem mem_mail_of_idle {nd nd' : Node} {k : Key} {m : Message} (hm : m ∈ mail nd' k)
    (hq : nd'.queue = nd.queue) (hr : nd'.rcv.message = [])
    (hc : nd'.kv.cached k = nd.kv.cached k) : m ∈ mail nd k := by
  rcases mem_mail.mp hm with hm | hm
  · rw [letters, hq, hr, List.append_nil] at hm
    exact mem_mail.mpr (Or.inl (List.mem_append_left _ hm))
  · exact mem_mail.mpr (Or.inr (hc ▸ hm))

theorem mem_mail_of_park {nd : Node} {k k' : Key} {q m : Message} (hr : nd.rcv.message = [q])
    (hm : m ∈ mail { nd with kv := nd.kv.addToCache_ k' q, rcv := .receiving } k) :
    m ∈ mail nd k := by
  rcases mem_mail.mp hm with hlet | hcache
  · refine mem_mail.mpr (Or.inl ?_)
    exact List.mem_append_left _ ((List.mem_append.mp hlet).resolve_right List.not_mem_nil)
  · replace hcache : m ∈ (nd.kv.addToCache_ k' q).cached k := hcache
    rw [KVStore.cached_addToCache] at hcache
    by_cases hk : k' = k
    · subst hk
      rw [if_pos rfl] at hcache
      rcases List.mem_append.mp hcache with hold | hnew
      · exact mem_mail.mpr (Or.inr hold)
      · refine mem_mail.mpr (Or.inl (List.mem_append_right _ ?_))
        rw [hr]
        exact hnew
    · rw [if_neg hk] at hcache
      exact mem_mail.mpr (Or.inr hcache)

theorem RcvStep.origin {cfg : Config} {id : SizeT} {nd nd' : Node} {out : List Message}
    (h : NodeOk cfg id nd) (hs : RcvStep cfg nd nd' out) {k : Key} {m : Message}
    (hm : m ∈ mail nd' k ∨ m ∈ out) : m ∈ mail nd k ∨ Fresh cfg id nd nd' m := by
  have hsid := h.storeId
  have hrcv := h.rcv
  cases hs with
  | receive q queue hr hq =>
    refine Or.inl ?_
    rcases mem_mail.mp (hm.resolve_right List.not_mem_nil) with hlet | hcache
    · refine mem_mail.mpr (Or.inl ?_)
      rw [letters, hq]
      rcases List.mem_append.mp hlet with hqueue | hhead
      · exact List.mem_append_left _ (List.mem_cons_of_mem _ hqueue)
      · exact List.mem_append_left _ (List.mem_singleton.mp hhead ▸ List.mem_cons_self)
    · exact mem_mail.mpr (Or.inr hcache)
  | serve q k' val hr hq hk hv =>
    rcases mem_mail.mp (hm.resolve_right List.not_mem_nil) with hlet | hcache
    · rcases List.mem_append.mp hlet with hqueue | hreply
      · exact Or.inl (mem_mail.mpr (Or.inl (List.mem_append_left _ hqueue)))
      · rw [List.mem_singleton.mp hreply, hsid]
        exact Or.inr (.reply k' q val ⟨hk.trans hsid, hv, Or.inl ⟨hr, hq⟩⟩)
    · exact Or.inl (mem_mail.mpr (Or.inr hcache))
  | miss q k' hr hq hk hv =>
    refine Or.inl ?_
    have hmem := hm.resolve_right List.not_mem_nil
    rwa [mail, hr]
  | addReply q k' val hr hq hl =>
    exact Or.inl (mem_mail_of_park (by rw [hr]; rfl) (hm.resolve_right List.not_mem_nil))
  | park k' q hr hl =>
    exact Or.inl (mem_mail_of_park (by rw [hr]; rfl) (hm.resolve_right List.not_mem_nil))
  | handleDone q hr hq hz hlt =>
    refine Or.inl (mem_mail_of_idle (hm.resolve_right List.not_mem_nil) rfl ?_ rfl)
    show RcvPc.message (if _ then .tearingDown 0 else .receiving) = []
    split <;> rfl
  | reply q hr ht =>
    rcases hm with hm | hm
    · exact Or.inl (mem_mail_of_idle hm rfl rfl rfl)
    · refine Or.inl (mem_mail.mpr (Or.inl ?_))
      rw [letters, hr]
      exact List.mem_append_right _ hm
  | drain k' kv replies hr hl hd ht =>
    rw [hr] at hrcv
    rcases hm with hm | hm
    · refine Or.inl (mem_mail_of_erase hm ?_ (KVStore.cached_of_drained hd k))
      intro hlet
      exact List.mem_append_left _ ((List.mem_append.mp hlet).resolve_right List.not_mem_nil)
    · exact Or.inr (h.fresh_drain hrcv.1 hd hm)
  | broadcast i hr hi =>
    rcases hm with hm | hm
    · exact Or.inl (mem_mail_of_idle hm rfl rfl rfl)
    · rw [List.mem_singleton.mp hm, hsid]
      exact Or.inr (.teardown i hr)
  | _ => exact Or.inl (mem_mail_of_idle (hm.resolve_right List.not_mem_nil) rfl rfl rfl)

/-- **A message on a node or on its way was on the node before, or the step made
it.** -/
theorem NodeStep.origin {cfg : Config} {id : SizeT} {nd nd' : Node} {r : Role}
    {out : List Message} (h : NodeOk cfg id nd) (hs : NodeStep cfg nd r nd' out) {k : Key}
    {m : Message} (hm : m ∈ mail nd' k ∨ m ∈ out) : m ∈ mail nd k ∨ Fresh cfg id nd nd' m := by
  cases r with
  | app => exact AppStep.origin h hs hm
  | rcv => exact RcvStep.origin h hs hm

/-- **The same for all the nodes.** -/
theorem Moved.origin {cfg : Config} {st st' : Cluster} {t : ThreadId} {nd : Node}
    {out : List Message} (hm : Moved cfg st t nd out st') (hi : Inv cfg st) {j : SizeT} {k : Key}
    {m : Message} (hmem : m ∈ mail (st'.nodes j) k) :
    (∃ i, m ∈ mail (st.nodes i) k) ∨ Fresh cfg t.1 (st.nodes t.1) (st'.nodes t.1) m := by
  have hpush : ∀ {nd : Node}, m ∈ mail (nd.push (toNode out j)) k →
      m ∈ mail nd k ∨ m ∈ out := by
    intro nd hmem
    rcases mem_mail.mp hmem with hlet | hcache
    · rcases List.mem_append.mp hlet with hqueue | hrcv
      · rcases List.mem_append.mp hqueue with hold | hnew
        · exact Or.inl (mem_mail.mpr (Or.inl (List.mem_append_left _ hold)))
        · exact Or.inr (mem_toNode.mp hnew).1
      · exact Or.inl (mem_mail.mpr (Or.inl (List.mem_append_right _ hrcv)))
    · exact Or.inl (mem_mail.mpr (Or.inr hcache))
  have hfresh : ∀ m, Fresh cfg t.1 (st.nodes t.1) nd m →
      Fresh cfg t.1 (st.nodes t.1) (st'.nodes t.1) m := by
    intro m hf
    have happ : (st'.nodes t.1).app = nd.app := by rw [hm.self, Node.push_app]
    cases hf with
    | put k v ha => exact .put k v ha
    | request k b ha hb => exact .request k b ha (happ.trans hb)
    | reply k q v ha => exact .reply k q v ha
    | done ha => exact .done ha
    | teardown i ha => exact .teardown i ha
  have hnode : ∀ {x}, x ∈ mail nd k ∨ x ∈ out →
      (∃ i, x ∈ mail (st.nodes i) k) ∨ Fresh cfg t.1 (st.nodes t.1) (st'.nodes t.1) x := by
    intro x hx
    rcases hm.node.origin (hi.nodes t.1) hx with hx | hx
    · exact Or.inl ⟨t.1, hx⟩
    · exact Or.inr (hfresh x hx)
  by_cases hj : j = t.1
  · rw [hj, hm.self] at hmem
    rw [hj] at hpush
    exact hnode (hpush hmem)
  · rw [hm.other hj] at hmem
    rcases hpush hmem with hmem | hmem
    · exact Or.inl ⟨j, hmem⟩
    · exact hnode (Or.inr hmem)

end Pseudo

end Eau2
