import Eau2.Network.Pseudo.Returns
import Eau2.Network.Pseudo.Teardown
import Eau2.Network.Pseudo.Waiters

/-!
# Reads and puts come back

A fair run in which no drain of an application overtakes the parking of a waiter for the
same key (`OrderlyRun`; `Waiters.lean` has the run in which one does).  A waiter parked at
the home of its key is then in reach of a drain from the moment the key is stored
(`Awake`), so every request is answered once its key is stored, whoever asked and whoever
stored it.

* `read_returns`: **a blocking read of a key that gets stored returns.**
* `put_arrives`: **what is put gets stored.**
-/

namespace Eau2

namespace Pseudo

open KVStore (Drained Taken)

def OrderlyRun {cfg : Config} (ρ : Fair cfg) : Prop :=
  ∀ n j, ρ.thread n = some (j, .app) → Orderly ((ρ.state n).nodes j) .app

/-- A waiter that is parked on node `id` for one of its keys, or about to be, is in reach
of a drain if the key is stored. -/
structure Awake (id : SizeT) (nd : Node) : Prop where
  parked : ∀ k, k.homeNode = id → nd.kv.cached k ≠ [] → (nd.kv.lookup k).isSome →
    nd.app = .draining k ∨ nd.rcv = .draining k
  parking : ∀ k m, nd.rcv = .parking k m → (nd.kv.lookup k).isSome → nd.app = .draining k

/-! ### One step -/

section

variable {cfg : Config} {id : SizeT} {nd nd' : Node} {out : List Message}

theorem Awake.of_app (h : Awake id nd) (hn : ∀ k, nd.app ≠ .draining k)
    (hr : nd'.rcv = nd.rcv) (hl : ∀ k, nd'.kv.lookup k = nd.kv.lookup k)
    (hc : ∀ k, k.homeNode = id → nd'.kv.cached k = nd.kv.cached k) : Awake id nd' where
  parked k hk hpark hsome := by
    rw [hc k hk] at hpark
    rw [hl] at hsome
    exact Or.inr (hr.trans ((h.parked k hk hpark hsome).resolve_left (hn k)))
  parking k m hpc hsome := by
    rw [hr] at hpc
    rw [hl] at hsome
    exact absurd (h.parking k m hpc hsome) (hn k)

theorem Awake.of_rcv (h : Awake id nd) (hn : ∀ k, nd.rcv ≠ .draining k)
    (hp : ∀ k m, nd'.rcv ≠ .parking k m) (ha : nd'.app = nd.app)
    (hl : ∀ k, nd'.kv.lookup k = nd.kv.lookup k)
    (hc : ∀ k, k.homeNode = id → nd'.kv.cached k = nd.kv.cached k) : Awake id nd' where
  parked k hk hpark hsome := by
    rw [hc k hk] at hpark
    rw [hl] at hsome
    exact Or.inl (ha.trans ((h.parked k hk hpark hsome).resolve_right (hn k)))
  parking k m hpc := absurd hpc (hp k m)

theorem Awake.appStep (h : Awake id nd) (hok : NodeOk cfg id nd) (ho : Orderly nd .app)
    (hs : AppStep cfg nd nd' out) : Awake id nd' := by
  have happ := hok.app
  have hnd : ∀ {pc : AppPc}, nd.app = pc → (∀ k, pc ≠ .draining k) → ∀ k, nd.app ≠ .draining k :=
    fun ha hpc k => by rw [ha]; exact hpc k
  cases hs with
  | putLocal k data ha hk =>
    have hn := hnd ha (by simp)
    have hhome : k.homeNode = id := hk.trans hok.storeId
    refine ⟨fun k' hk' hpark hsome => ?_, fun k' m hr hsome => ?_⟩
    · rcases lookup_insert_isSome hhome hk' hsome with rfl | hsome
      · exact Or.inl rfl
      · exact Or.inr ((h.parked k' hk' hpark hsome).resolve_left (hn k'))
    · have hrcv := hok.rcv
      replace hr : nd.rcv = .parking k' m := hr
      rw [hr] at hrcv
      have hk' := (hrcv.1.waitAndGet k' hrcv.2).1
      rcases lookup_insert_isSome hhome hk' hsome with rfl | hsome
      · rfl
      · exact absurd (h.parking k' m hr hsome) (hn k')
  | drain k kv replies ha hl hd ht =>
    have hlook : ∀ k', kv.lookup k' = nd.kv.lookup k' := fun k' => by
      rw [KVStore.lookup, hd.kvMap, KVStore.lookup]
    refine ⟨fun k' hk' hpark hsome => ?_, fun k' m hr hsome => ?_⟩
    · obtain ⟨hne, hpark⟩ := cached_of_drained_ne hd hpark
      replace hsome : (kv.lookup k').isSome := hsome
      rw [hlook] at hsome
      refine Or.inr ((h.parked k' hk' hpark hsome).resolve_left fun hd' => ?_)
      rw [ha] at hd'
      cases hd'
      exact hne rfl
    · replace hsome : (kv.lookup k').isSome := hsome
      rw [hlook] at hsome
      have hd' := h.parking k' m hr hsome
      rw [ha] at hd'
      cases hd'
      -- the waiter would be parked behind the drain
      exact absurd hr (ho k m rfl ha)
  | take k b val kv ha hl ht =>
    rw [ha] at happ
    refine h.of_app (hnd ha (by simp)) rfl ?_ fun k' hk' => ?_
    · intro k'
      show kv.lookup k' = _
      rw [KVStore.lookup, ht.kvMap, KVStore.lookup]
    · show kv.cached k' = _
      rw [KVStore.cached_of_taken ht, if_neg]
      rintro rfl
      exact happ.1 hk'
  | call op ha hp => exact h.of_app (hnd ha (by simp)) rfl (fun _ => rfl) fun _ _ => rfl
  | ret ha hp => exact h.of_app (hnd ha (by simp)) rfl (fun _ => rfl) fun _ _ => rfl
  | putRemote k data ha hk ht =>
    exact h.of_app (hnd ha (by simp)) rfl (fun _ => rfl) fun _ _ => rfl
  | getLocal k b r ha hk hv hr =>
    exact h.of_app (hnd ha (by simp)) rfl (fun _ => rfl) fun _ _ => rfl
  | ask k b ha hk ht => exact h.of_app (hnd ha (by simp)) rfl (fun _ => rfl) fun _ _ => rfl
  | giveUp k ha hl hg => exact h.of_app (hnd ha (by simp)) rfl (fun _ => rfl) fun _ _ => rfl
  | done ha ht => exact h.of_app (hnd ha (by simp)) rfl (fun _ => rfl) fun _ _ => rfl
  | join ha hr => exact h.of_app (hnd ha (by simp)) rfl (fun _ => rfl) fun _ _ => rfl

theorem Awake.rcvStep (h : Awake id nd) (hok : NodeOk cfg id nd)
    (hs : RcvStep cfg nd nd' out) : Awake id nd' := by
  have hrcv := hok.rcv
  have hnd : ∀ {pc : RcvPc}, nd.rcv = pc → (∀ k, pc ≠ .draining k) → ∀ k, nd.rcv ≠ .draining k :=
    fun hr hpc k => by rw [hr]; exact hpc k
  cases hs with
  | miss m k hr hb hk hv =>
    refine ⟨fun k' hk' hpark hsome =>
      Or.inl ((h.parked k' hk' hpark hsome).resolve_right (hnd hr (by simp) k')), ?_⟩
    rintro k' m' ⟨⟩ hsome
    replace hsome : (nd.kv.lookup k).isSome := hsome
    rw [hv] at hsome
    cases hsome
  | addReply m k val hr hb hl =>
    rw [hr] at hrcv
    refine h.of_rcv (hnd hr (by simp)) (by simp) rfl
      (fun k' => KVStore.lookup_addToCache nd.kv k k' m) fun k' hk' => ?_
    show (nd.kv.addToCache_ k m).cached k' = _
    rw [KVStore.cached_addToCache, if_neg]
    rintro rfl
    exact hrcv.replyData k val hb hk'
  | put m k data hr hb hk =>
    have hhome : k.homeNode = id := hk.trans hok.storeId
    refine ⟨fun k' hk' hpark hsome => ?_, by rintro k' m' ⟨⟩⟩
    rcases lookup_insert_isSome hhome hk' hsome with rfl | hsome
    · exact Or.inr rfl
    · exact Or.inl ((h.parked k' hk' hpark hsome).resolve_right (hnd hr (by simp) k'))
  | park k m hr hl =>
    refine ⟨fun k' hk' hpark hsome => ?_, by rintro k' m' ⟨⟩⟩
    replace hsome : ((nd.kv.addToCache_ k m).lookup k').isSome := hsome
    rw [KVStore.lookup_addToCache] at hsome
    by_cases hkk : k = k'
    · subst hkk
      exact Or.inl (h.parking k m hr hsome)
    · replace hpark : (nd.kv.addToCache_ k m).cached k' ≠ [] := hpark
      rw [KVStore.cached_addToCache, if_neg hkk] at hpark
      exact Or.inl ((h.parked k' hk' hpark hsome).resolve_right (hnd hr (by simp) k'))
  | drain k kv replies hr hl hd ht =>
    refine ⟨fun k' hk' hpark hsome => ?_, by rintro k' m' ⟨⟩⟩
    obtain ⟨hne, hpark⟩ := cached_of_drained_ne hd hpark
    replace hsome : (kv.lookup k').isSome := hsome
    rw [KVStore.lookup, hd.kvMap] at hsome
    refine Or.inl ((h.parked k' hk' hpark hsome).resolve_right fun hd' => ?_)
    rw [hr] at hd'
    cases hd'
    exact hne rfl
  | handleDone m hr hb hz hlt =>
    refine h.of_rcv (hnd hr (by simp)) ?_ rfl (fun _ => rfl) fun _ _ => rfl
    intro k' m'
    show (if _ then RcvPc.tearingDown 0 else .receiving) ≠ _
    split <;> simp
  | receive m queue hr hq =>
    exact h.of_rcv (hnd hr (by simp)) (by simp) rfl (fun _ => rfl) fun _ _ => rfl
  | serve m k val hr hb hk hv =>
    exact h.of_rcv (hnd hr (by simp)) (by simp) rfl (fun _ => rfl) fun _ _ => rfl
  | handleTeardown m hr hk =>
    exact h.of_rcv (hnd hr (by simp)) (by simp) rfl (fun _ => rfl) fun _ _ => rfl
  | skip m hr hk =>
    exact h.of_rcv (hnd hr (by simp)) (by simp) rfl (fun _ => rfl) fun _ _ => rfl
  | reply m hr ht =>
    exact h.of_rcv (hnd hr (by simp)) (by simp) rfl (fun _ => rfl) fun _ _ => rfl
  | broadcast i hr hi =>
    exact h.of_rcv (hnd hr (by simp)) (by simp) rfl (fun _ => rfl) fun _ _ => rfl
  | broadcastEnd i hr hi =>
    exact h.of_rcv (hnd hr (by simp)) (by simp) rfl (fun _ => rfl) fun _ _ => rfl

end

/-! ### A run -/

variable {cfg : Config} {ρ : Fair cfg}

theorem Awake.push {id : SizeT} {nd : Node} (h : Awake id nd) (ms : List Message) :
    Awake id (nd.push ms) := ⟨h.parked, h.parking⟩

theorem awake_new (id : SizeT) : Awake id (Node.new id) := by
  constructor <;> simp [Node.new, KVStore.new, KVStore.cached]

/-- **In an orderly run every waiter stays in reach of a drain.** -/
theorem OrderlyRun.awake (ho : OrderlyRun ρ) (hc : Sound cfg) (n : ℕ) (j : SizeT) :
    Awake j ((ρ.state n).nodes j) := by
  induction n generalizing j with
  | zero =>
    rw [ρ.start]
    exact awake_new j
  | succ n ih =>
    cases ht : ρ.thread n with
    | none =>
      rw [ρ.waits n ht]
      exact ih j
    | some t =>
      obtain ⟨nd, out, hm⟩ := hc.moves ht
      refine hm.forall (P := Awake) ih ?_ (fun j nd' h => h.push _) j
      have hok := (reachable ρ n).inv.nodes t.1
      have hnode := hm.node
      cases hr : t.2 with
      | app =>
        rw [hr] at hnode
        refine (ih t.1).appStep hok (ho n t.1 ?_) hnode
        rw [ht, ← hr]
      | rcv =>
        rw [hr] at hnode
        exact (ih t.1).rcvStep hok hnode

theorem Sound.stays (hc : Sound cfg) {j : SizeT} {P : Node → Prop}
    (step : ∀ nd nd' r out, NodeOk cfg j nd → NodeStep cfg nd r nd' out → P nd → P nd')
    (push : ∀ nd ms, P nd → P (nd.push ms)) {n m : ℕ} (hle : n ≤ m)
    (h : P ((ρ.state n).nodes j)) : P ((ρ.state m).nodes j) := by
  induction m, hle using Nat.le_induction with
  | base => exact h
  | succ m _ ih =>
    cases ht : ρ.thread m with
    | none => rwa [ρ.waits m ht]
    | some t =>
      obtain ⟨nd, out, hm⟩ := hc.moves ht
      by_cases hj : j = t.1
      · subst hj
        rw [hm.self]
        exact push _ _ (step _ _ _ _ ((reachable ρ m).inv.nodes t.1) hm.node ih)
      · rw [hm.other hj]
        exact push _ _ ih

theorem Sound.lookup_stays (hc : Sound cfg) {n m : ℕ} (hle : n ≤ m) {j : SizeT} {k : Key}
    (h : (((ρ.state n).nodes j).kv.lookup k).isSome) :
    (((ρ.state m).nodes j).kv.lookup k).isSome :=
  hc.stays (P := fun nd => (nd.kv.lookup k).isSome) (fun _ _ _ _ _ hs h => hs.lookup_isSome h)
    (fun _ _ h => h) hle h

/-! ### A read that does not return -/

section Starving

variable {k : Key} {w : SizeT} {n₀ : ℕ}

/-- From moment `n₀` on node `w` waits for a key that is stored at its home; it will turn
out that there is no such run. -/
structure Starving (cfg : Config) (ρ : Fair cfg) (k : Key) (w : SizeT) (n₀ : ℕ) : Prop extends
    Awaiting cfg ρ k w n₀ where
  orderly : OrderlyRun ρ
  stored : ∀ m, n₀ ≤ m → (((ρ.state m).nodes k.homeNode).kv.lookup k).isSome

/-- A drain of the key would answer the waiters of `w`. -/
theorem Starving.not_drained (h : Starving cfg ρ k w n₀) {n : ℕ} (hn : n₀ ≤ n) {q : Message}
    (hq : q ∈ ((ρ.state n).nodes k.homeNode).kv.cached k) (hs : q.sender = w) {t : ThreadId}
    (ht : t.1 = k.homeNode) {nd : Node} {out : List Message}
    (hm : Moved cfg (ρ.state n) t nd out (ρ.state (n + 1))) {kv : KVStore} :
    ¬ Drained ((ρ.state n).nodes k.homeNode).kv kv k out := by
  intro hd
  obtain ⟨val, -, hreplies⟩ := hd.replies
  refine h.not_queued (n := n + 1) (by omega) (v := val) (x := Message.replyDataMsg k val
    ((ρ.state n).nodes k.homeNode).kv.storeId q.sender) rfl ?_
  rw [hm.other (by rw [ht]; exact h.away.symm), Node.push_queue]
  refine List.mem_append_right _ (mem_toNode.mpr ⟨?_, hs⟩)
  rw [hreplies]
  exact List.mem_map_of_mem hq

theorem Starving.stays (h : Starving cfg ρ k w n₀) {q : Message} (hs : q.sender = w) {n m : ℕ}
    (hn : n₀ ≤ n) (hq : q ∈ ((ρ.state n).nodes k.homeNode).kv.cached k) (hle : n ≤ m) :
    q ∈ ((ρ.state m).nodes k.homeNode).kv.cached k := by
  induction m, hle using Nat.le_induction with
  | base => exact hq
  | succ m hm ih =>
    cases ht : ρ.thread m with
    | none => rwa [ρ.waits m ht]
    | some t =>
      obtain ⟨nd, out, hmoved⟩ := h.sound.moves ht
      have hok := (reachable ρ m).inv.nodes k.homeNode
      by_cases hj : t.1 = k.homeNode
      · have hdrain : ∀ kv, ¬ Drained ((ρ.state m).nodes k.homeNode).kv kv k out :=
          fun _ => h.not_drained (hn.trans hm) ih hs hj hmoved
        have hself := hmoved.self
        have hnode := hmoved.node
        rw [hj] at hself hnode
        rw [hself, Node.push_kv]
        have hkeep : ∀ {kv : KVStore} {k' : Key},
            (∀ k'', kv.cached k'' = if k' = k'' then [] else
              ((ρ.state m).nodes k.homeNode).kv.cached k'') → k' ≠ k → q ∈ kv.cached k := by
          intro kv k' hcache hne
          rwa [hcache, if_neg hne]
        have hadd : ∀ k' x, q ∈ (((ρ.state m).nodes k.homeNode).kv.addToCache_ k' x).cached k := by
          intro k' x
          rw [KVStore.cached_addToCache]
          split
          · rename_i hkk
            rw [hkk]
            exact List.mem_append_left _ ih
          · exact ih
        cases hrole : t.2 with
        | app =>
          rw [hrole] at hnode
          replace hnode : AppStep cfg ((ρ.state m).nodes k.homeNode) nd out := hnode
          cases hnode with
          | drain k' kv replies ha hl hd htarget =>
            refine hkeep (KVStore.cached_of_drained hd) ?_
            rintro rfl
            exact hdrain kv hd
          | take k' b val kv ha hl htaken =>
            refine hkeep (KVStore.cached_of_taken htaken) ?_
            rintro rfl
            have happ := hok.app
            rw [ha] at happ
            exact happ.1 rfl
          | _ => exact ih
        | rcv =>
          rw [hrole] at hnode
          replace hnode : RcvStep cfg ((ρ.state m).nodes k.homeNode) nd out := hnode
          cases hnode with
          | drain k' kv replies hr hl hd htarget =>
            refine hkeep (KVStore.cached_of_drained hd) ?_
            rintro rfl
            exact hdrain kv hd
          | addReply x k' val hr hb hl => exact hadd k' x
          | park k' x hr hl => exact hadd k' x
          | _ => exact ih
      · rwa [hmoved.other (Ne.symm hj), Node.push_kv]

/-- **No waiter of `w` is parked for the key**: a drain is still to come. -/
theorem Starving.not_parked (h : Starving cfg ρ k w n₀) {q : Message} (hs : q.sender = w) {n : ℕ}
    (hn : n₀ ≤ n) : q ∉ ((ρ.state n).nodes k.homeNode).kv.cached k := by
  intro hq
  rcases (h.orderly.awake h.sound n k.homeNode).parked k rfl (List.ne_nil_of_mem hq)
    (h.stored n hn) with ha | hr
  · -- the application's drain
    obtain ⟨m, hm, ht, ha'⟩ := ρ.ensures (t := (k.homeNode, .app))
      (P := fun m => ((ρ.state m).nodes k.homeNode).app = .draining k) ha
      (fun m _ ha => by
        have ho : nodeStep cfg ((ρ.state m).nodes k.homeNode) .app =
            some (drain cfg (((ρ.state m).nodes k.homeNode).finish none) k) := by
          show appStep cfg _ = _
          simp only [appStep, ha, h.sound.lockHeld (reachable ρ m), Bool.false_eq_true, if_false]
        exact h.sound.ready (reachable ρ m) h.ltHome ho)
      (fun m _ ha ht => (h.sound.app_stays ht).trans ha)
    obtain ⟨nd, out, hmoved⟩ := h.sound.moves ht
    have hnode : AppStep cfg ((ρ.state m).nodes k.homeNode) nd out := hmoved.node
    cases hnode with
    | drain k' kv replies ha'' hl hd htarget =>
      rw [ha'] at ha''
      cases ha''
      exact h.not_drained (hn.trans hm) (h.stays hs hn hq hm) hs rfl hmoved hd
    | _ => simp_all
  · -- the receiver's drain
    obtain ⟨m, hm, ht, hr'⟩ := h.sound.busy_moves h.ltHome hr (by simp) (by simp)
    obtain ⟨nd, out, hmoved⟩ := h.sound.moves ht
    obtain ⟨hnode, -⟩ := hmoved.rcvStep
    cases hnode with
    | drain k' kv replies hr'' hl hd htarget =>
      rw [hr'] at hr''
      cases hr''
      exact h.not_drained (hn.trans hm) (h.stays hs hn hq hm) hs rfl hmoved hd
    | _ => simp_all

theorem Starving.not_parking (h : Starving cfg ρ k w n₀) {q : Message} (hs : q.sender = w)
    {n : ℕ} (hn : n₀ ≤ n) : ((ρ.state n).nodes k.homeNode).rcv ≠ .parking k q := by
  intro hr
  obtain ⟨m, hm, ht, hr'⟩ := h.sound.busy_moves h.ltHome hr (by simp) (by simp)
  obtain ⟨nd, out, hmoved⟩ := h.sound.moves ht
  obtain ⟨hnode, hself⟩ := hmoved.rcvStep
  refine h.not_parked hs (n := m + 1) (by omega) (q := q) ?_
  rw [hself, Node.push_kv]
  cases hnode with
  | park k' x hr'' hl =>
    rw [hr'] at hr''
    cases hr''
    show q ∈ (KVStore.addToCache_ _ k q).cached k
    rw [KVStore.cached_addToCache, if_pos rfl]
    exact List.mem_append_right _ (List.mem_singleton.mpr rfl)
  | _ => simp_all

/-- **There is no such run.** -/
theorem Starving.false (h : Starving cfg ρ k w n₀) : False := by
  refine h.toAwaiting.false (fun n hn q hq => ?_) fun q hq hs => ?_
  · refine h.not_asked hq (fun m hm _ => ?_) hn
    exact Option.isSome_iff_ne_none.mp (h.stored m hm)
  · rcases hq with hq | hq
    · exact h.not_parked hs (Nat.le_refl n₀) hq
    · exact h.not_parking hs (Nat.le_refl n₀) hq

end Starving

/-! ### Reads -/

section Reads

variable {i : SizeT} {k : Key}

theorem Sound.in_get (hc : Sound cfg) {n : ℕ} (h : InGet ((ρ.state n).nodes i) k true) :
    InGet ((ρ.state (n + 1)).nodes i) k true ∨
      ∃ r, Returns (ρ.state n) (ρ.state (n + 1)) i k true r := by
  by_cases ht : ρ.thread n = some (i, .app)
  · obtain ⟨nd, out, hm⟩ := hc.moves ht
    have hs : AppStep cfg ((ρ.state n).nodes i) nd out := hm.node
    have hself := hm.self
    have hret : ∀ r, nd = { ((ρ.state n).nodes i).finish r with kv := nd.kv } →
        Returns (ρ.state n) (ρ.state (n + 1)) i k true r := by
      intro r he
      exact ⟨h, by rw [hself, he]; rfl, by rw [hself, he]; rfl⟩
    cases hs with
    | getLocal k' b r ha hk hv hr => exact Or.inr ⟨r, hret r rfl⟩
    | take k' b val kv ha hl htaken => exact Or.inr ⟨some val, hret _ rfl⟩
    | ask k' b ha hk hlt =>
      cases h.of_calling ha
      exact Or.inl (Or.inr (by rw [hself]; rfl))
    | giveUp k' ha hl hg =>
      obtain ⟨-, hb⟩ := h.of_awaiting ha
      cases hb
    | _ => rcases h with h | h <;> simp_all
  · rw [InGet, hc.app_stays ht]
    exact Or.inl h

theorem Sound.get_moves (hc : Sound cfg) {n : ℕ}
    (ha : ((ρ.state n).nodes i).app = .calling (.getValue k true))
    (hst : (((ρ.state n).nodes k.homeNode).kv.lookup k).isSome) :
    ∃ m, n ≤ m ∧ ((∃ r, Returns (ρ.state m) (ρ.state (m + 1)) i k true r) ∨
      ((ρ.state (m + 1)).nodes i).app = .awaiting k true) := by
  have hlt := (reachable ρ n).lt_of_app ha fun hc => by cases hc
  obtain ⟨m, hm, ht, ha⟩ := ρ.ensures (t := (i, .app))
    (P := fun m => ((ρ.state m).nodes i).app = .calling (.getValue k true)) ha
    (fun m hm ha => by
      have ho : ∃ o, nodeStep cfg ((ρ.state m).nodes i) .app = some o := by
        show ∃ o, appStep cfg _ = some o
        rw [appStep, ha]
        show ∃ o, getValue cfg _ k true = some o
        rw [getValue]
        split
        · rename_i hk
          rw [((reachable ρ m).inv.nodes i).storeId] at hk
          obtain ⟨v, hv⟩ := Option.isSome_iff_exists.mp (hc.lookup_stays hm hst)
          rw [hk] at hv
          rw [hv]
          exact ⟨_, rfl⟩
        · exact ⟨_, rfl⟩
      obtain ⟨o, ho⟩ := ho
      exact hc.ready (reachable ρ m) hlt ho)
    (fun m _ ha ht => (hc.app_stays ht).trans ha)
  refine ⟨m, hm, ?_⟩
  rcases hc.in_get (Or.inl ha) with hin | hret
  · refine Or.inr (hin.resolve_left fun hcall => ?_)
    obtain ⟨nd, out, hmoved⟩ := hc.moves ht
    have hs : AppStep cfg ((ρ.state m).nodes i) nd out := hmoved.node
    rw [hmoved.self, Node.push_app] at hcall
    cases hs <;> simp_all [Node.finish]
  · exact Or.inl hret

/-- **A blocking read of a key that gets stored returns.** In every fair and orderly run of
programs whose assertions cannot fail, whichever node reads, whichever nodes write and
whenever the key is stored. -/
theorem read_returns (hc : Sound cfg) (ρ : Fair cfg) (ho : OrderlyRun ρ) {n m : ℕ}
    (hin : InGet ((ρ.state n).nodes i) k true)
    (hst : (((ρ.state m).nodes k.homeNode).kv.lookup k).isSome) :
    ∃ n', n ≤ n' ∧ ∃ r, Returns (ρ.state n') (ρ.state (n' + 1)) i k true r := by
  by_contra hno
  have hin : ∀ n', n ≤ n' → InGet ((ρ.state n').nodes i) k true := by
    intro n' hle
    induction n', hle using Nat.le_induction with
    | base => exact hin
    | succ n' hle ih => exact (hc.in_get ih).resolve_right fun hret => hno ⟨n', hle, hret⟩
  have hstored : ∀ n', m ≤ n' → (((ρ.state n').nodes k.homeNode).kv.lookup k).isSome :=
    fun n' hle => hc.lookup_stays hle hst
  -- it waits, at some moment when the key is stored
  obtain ⟨n', hle, hle', ha⟩ : ∃ n', n ≤ n' ∧ m ≤ n' ∧
      ((ρ.state n').nodes i).app = .awaiting k true := by
    rcases hin (max n m) (le_max_left n m) with ha | ha
    · obtain ⟨n', hle, hret | ha⟩ := hc.get_moves ha (hstored _ (le_max_right n m))
      · exact absurd ⟨n', (le_max_left n m).trans hle, hret⟩ hno
      · exact ⟨n' + 1, by omega, by omega, ha⟩
    · exact ⟨max n m, le_max_left n m, le_max_right n m, ha⟩
  rcases hc.returns_or_awaiting ha with ⟨n'', hle'', hret⟩ | hawait
  · exact hno ⟨n'', hle.trans hle'', hret⟩
  · exact Starving.false {
      hawait with
      orderly := ho
      stored := fun n'' hle'' => hstored n'' (hle'.trans hle'') }

end Reads

theorem sound_pairCfg : Sound pairCfg where
  blocking := not_polls_pairCfg
  homed i rs op h := by
    simp only [pairCfg] at h
    split at h
    · split at h <;> cases h <;> decide
    · cases h
  server := rfl

/-- The whole run of the two nodes: node `0` asks before node `1` puts. -/
def pairRun : Fair pairCfg :=
  .ofStuck (pairSchedule ++ partingSchedule) (Option.some_get _).symm stuck_partedCluster

def isOrderlyStep (st : Cluster) : ThreadId → Bool
  | (j, .app) => isOrderly (st.nodes j) .app
  | (_, .rcv) => true

theorem orderlyRun_pairRun : OrderlyRun pairRun := fun _ _ ht =>
  orderly_of_isOrderly
    (Schedule.FairRun.ofStuck_always _ stuck_partedCluster (p := isOrderlyStep) (by decide) ht)

theorem read_returns_pair : ∃ n, 1 ≤ n ∧ ∃ r,
    Returns (pairRun.state n) (pairRun.state (n + 1)) 0 ⟨⟨[97], by decide⟩, 1⟩ true r :=
  read_returns (m := 8) sound_pairCfg pairRun orderlyRun_pairRun (Or.inl (by decide)) (by decide)

/-! ### Puts -/

section Puts

variable {i : SizeT} {k : Key} {v : Value}

theorem Sound.app_moves (hc : Sound cfg) (hlt : i < cfg.numNodes) {n : ℕ} {pc : AppPc}
    (ha : ((ρ.state n).nodes i).app = pc)
    (ready : ∀ nd : Node, nd.app = pc → nd.lockHeld = false → ∃ o, appStep cfg nd = some o) :
    ∃ m, n ≤ m ∧ ρ.thread m = some (i, .app) ∧ ((ρ.state m).nodes i).app = pc := by
  refine ρ.ensures ha (fun m _ ha => ?_) fun m _ ha ht => (hc.app_stays ht).trans ha
  obtain ⟨o, ho⟩ := ready _ ha (hc.lockHeld (reachable ρ m) i)
  exact hc.ready (reachable ρ m) hlt ho

theorem Sound.stores (hc : Sound cfg) (hlt : k.homeNode < cfg.numNodes) {n : ℕ} {q : Message}
    (hb : q.body = .put k v) (hq : q ∈ ((ρ.state n).nodes k.homeNode).queue) :
    ∃ m, n ≤ m ∧ (((ρ.state m).nodes k.homeNode).kv.lookup k).isSome := by
  obtain ⟨n₁, hle, hr⟩ := handles hc hlt hq
  obtain ⟨m, hm, ht, hr⟩ := hc.busy_moves hlt hr (by simp) (by simp)
  obtain ⟨nd, out, hmoved⟩ := hc.moves ht
  obtain ⟨hs, hself⟩ := hmoved.rcvStep
  refine ⟨m + 1, by omega, ?_⟩
  have hkv := hs.of_put ((reachable ρ m).inv.nodes k.homeNode) hr hb
  rw [hself, Node.push_kv, hkv, KVStore.lookup_insert, if_pos rfl]
  rfl

/-- **What is put gets stored.** -/
theorem put_arrives (hc : Sound cfg) (ρ : Fair cfg) {n : ℕ}
    (ha : ((ρ.state n).nodes i).app = .calling (.put k v)) :
    ∃ m, n ≤ m ∧ (((ρ.state m).nodes k.homeNode).kv.lookup k).isSome := by
  have hlt := (reachable ρ n).lt_of_app ha fun hc => by cases hc
  obtain ⟨m, hm, ht, ha⟩ := hc.app_moves hlt ha fun nd ha _ => by
    rw [appStep, ha]
    show ∃ o, (if k.homeNode ≠ nd.kv.storeId then _ else _) = some o
    split <;> exact ⟨_, rfl⟩
  obtain ⟨nd, out, hmoved⟩ := hc.moves ht
  have hs : AppStep cfg ((ρ.state m).nodes i) nd out := hmoved.node
  have hsid := ((reachable ρ m).inv.nodes i).storeId
  cases hs with
  | putRemote k' data ha' hk hhome =>
    rw [ha] at ha'
    cases ha'
    rw [hsid] at hk
    obtain ⟨m', hm', hst⟩ := hc.stores (n := m + 1) hhome rfl (q := Message.putMsg k v
      ((ρ.state m).nodes i).kv.storeId k.homeNode) (by
        rw [hmoved.other hk, Node.push_queue]
        exact List.mem_append_right _ (mem_toNode.mpr ⟨List.mem_singleton.mpr rfl, rfl⟩))
    exact ⟨m', by omega, hst⟩
  | putLocal k' data ha' hk =>
    rw [ha] at ha'
    cases ha'
    refine ⟨m + 1, by omega, ?_⟩
    rw [hk, hsid, hmoved.self, Node.push_kv]
    show ((KVStore.insert _ k v).lookup k).isSome
    rw [KVStore.lookup_insert, if_pos rfl]
    rfl
  | _ => simp_all

end Puts

end Pseudo

end Eau2
