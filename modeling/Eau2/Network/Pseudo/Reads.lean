import Eau2.Network.Pseudo.Provenance

/-!
# What a read returns

Along a run, what is stored under a string of a node was handed to an earlier
`put` of exactly that key (`PutBefore`), and so was the value of every `PutMsg`.
A reply to a node that is waiting was made by the home of the key while the node
was already waiting, from what the home had stored at that moment (`Answered`);
to a non-blocking request it was made where the home handles that request.

* `Prov`, `prov_run`: these facts along a run.
* `getValue_returns_stored`: a blocking `getValue` returns what the home held at
  some moment of the call.
* `get_ok_iff`: the non-blocking `get` of a key homed elsewhere does what it
  should exactly where its reply is in the cache before it takes the lock.
-/

namespace Eau2

namespace Pseudo

open KVStore (Drained Taken)

def InGet (nd : Node) (k : Key) (b : Bool) : Prop :=
  nd.app = .calling (.getValue k b) ∨ nd.app = .awaiting k b

theorem InGet.of_calling {nd : Node} {k : Key} {b : Bool} (h : InGet nd k b) {op : Op}
    (ha : nd.app = .calling op) : op = .getValue k b := by
  rcases h with hin | hin
  · rw [hin] at ha
    cases ha
    rfl
  · rw [hin] at ha
    cases ha

theorem InGet.of_awaiting {nd : Node} {k k' : Key} {b b' : Bool} (h : InGet nd k b)
    (ha : nd.app = .awaiting k' b') : k' = k ∧ b' = b := by
  rcases h with hin | hin
  · rw [hin] at ha
    cases ha
  · rw [hin] at ha
    cases ha
    exact ⟨rfl, rfl⟩

/-- From moment `m` to the end of the schedule node `i` is inside `getValue(k, b)`. -/
def InGetSince (cfg : Config) (ts : List ThreadId) (m : Nat) (i : SizeT) (k : Key) (b : Bool) :
    Prop :=
  ∀ m', m ≤ m' → m' ≤ ts.length → ∀ s, run cfg (ts.take m') = some s → InGet (s.nodes i) k b

/-- Some application had called `put(k, v)` by the end of the schedule. -/
def PutBefore (cfg : Config) (ts : List ThreadId) (k : Key) (v : Value) : Prop :=
  ∃ m ≤ ts.length, ∃ s, run cfg (ts.take m) = some s ∧ ∃ j, (s.nodes j).app = .calling (.put k v)

/-- The receiver of node `id` is handling the `GetDataMsg` of node `i` for `k`. -/
def HandlesGetData (nd : Node) (i : SizeT) (k : Key) : Prop :=
  ∃ q, nd.rcv = .handling q ∧ q.body = .getData k ∧ q.sender = i

/-- At moment `m` of its call node `i` was being answered with `v`. -/
structure Answered (cfg : Config) (ts : List ThreadId) (i : SizeT) (k : Key) (b : Bool)
    (v : Value) (m : Nat) : Prop where
  le : m ≤ ts.length
  since : InGetSince cfg ts m i k b
  held : ∃ s, run cfg (ts.take m) = some s ∧ (s.nodes k.homeNode).kv.lookup k = some v ∧
    (b = false → HandlesGetData (s.nodes k.homeNode) i k)

theorem take_snoc {ts : List ThreadId} (t : ThreadId) {m : Nat} (h : m ≤ ts.length) :
    (ts ++ [t]).take m = ts.take m := List.take_append_of_le_length h

theorem PutBefore.snoc {cfg : Config} {ts : List ThreadId} {k : Key} {v : Value}
    (h : PutBefore cfg ts k v) (t : ThreadId) : PutBefore cfg (ts ++ [t]) k v := by
  obtain ⟨m, hm, s, hs, hj⟩ := h
  exact ⟨m, by rw [List.length_append]; omega, s, by rwa [take_snoc t hm], hj⟩

theorem PutBefore.now {cfg : Config} {ts : List ThreadId} {st : Cluster}
    (hr : run cfg ts = some st) {j : SizeT} {k : Key} {v : Value}
    (h : (st.nodes j).app = .calling (.put k v)) : PutBefore cfg ts k v :=
  ⟨ts.length, Nat.le_refl _, st, by rwa [List.take_length], j, h⟩

theorem InGetSince.snoc {cfg : Config} {ts : List ThreadId} {t : ThreadId} {m : Nat} {i : SizeT}
    {k : Key} {b : Bool} (h : InGetSince cfg ts m i k b) {st' : Cluster}
    (hr : run cfg (ts ++ [t]) = some st') (hin : InGet (st'.nodes i) k b) :
    InGetSince cfg (ts ++ [t]) m i k b := by
  intro m' hm hle s hs
  rw [List.length_append, List.length_singleton] at hle
  rcases Nat.lt_or_ge ts.length m' with hlt | hge
  · rw [List.take_of_length_le (by rw [List.length_append, List.length_singleton]; omega)] at hs
    rw [hr] at hs
    cases hs
    exact hin
  · rw [take_snoc t hge] at hs
    exact h m' hm hge s hs

theorem InGetSince.now {cfg : Config} {ts : List ThreadId} {st : Cluster}
    (hr : run cfg ts = some st) {i : SizeT} {k : Key} {b : Bool} (hin : InGet (st.nodes i) k b) :
    InGetSince cfg ts ts.length i k b := by
  intro m' hm hle s hs
  obtain rfl : m' = ts.length := Nat.le_antisymm hle hm
  rw [List.take_length, hr] at hs
  cases hs
  exact hin

theorem Answered.snoc {cfg : Config} {ts : List ThreadId} {t : ThreadId} {i : SizeT} {k : Key}
    {b : Bool} {v : Value} {m : Nat} (h : Answered cfg ts i k b v m) {st' : Cluster}
    (hr : run cfg (ts ++ [t]) = some st') (hin : InGet (st'.nodes i) k b) :
    Answered cfg (ts ++ [t]) i k b v m where
  le := by
    have := h.le
    rw [List.length_append]
    omega
  since := h.since.snoc hr hin
  held := by
    obtain ⟨s, hs, hheld⟩ := h.held
    exact ⟨s, by rwa [take_snoc t h.le], hheld⟩

/-! ### The facts along a run -/

/-- **Where the values in a state come from.** -/
structure Prov (cfg : Config) (ts : List ThreadId) (st : Cluster) : Prop where
  stored : ∀ h s v, (st.nodes h).kv.kvMap.get s = some v → PutBefore cfg ts ⟨s, h⟩ v
  puts : ∀ j k' m k v, m ∈ mail (st.nodes j) k' → m.body = .put k v → PutBefore cfg ts k v
  /-- A node in a non-blocking `get` has no `WaitAndGetMsg` out. -/
  asks : NoLockHeld st → ∀ i j k m, m ∈ mail (st.nodes j) k → m.body = .waitAndGet k →
    m.sender = i → (st.nodes i).app ≠ .awaiting k false
  replies : NoLockHeld st → ∀ i j k m v b, m ∈ mail (st.nodes j) k → m.body = .replyData k v →
    m.target = i → (st.nodes i).app = .awaiting k b → ∃ mo, Answered cfg ts i k b v mo

theorem not_mem_mail_init (j : SizeT) (k : Key) (m : Message) :
    m ∉ mail (Cluster.init.nodes j) k := by
  simp [Cluster.init, mail, Node.new, RcvPc.message, KVStore.cached, KVStore.new]

theorem prov_init (cfg : Config) : Prov cfg [] Cluster.init where
  stored := by simp [Cluster.init, Node.new, KVStore.new]
  puts := fun j k' m k v hm => absurd hm (not_mem_mail_init j k' m)
  asks := fun _ i j k m hm => absurd hm (not_mem_mail_init j k m)
  replies := fun _ i j k m v b hm => absurd hm (not_mem_mail_init j k m)

theorem AppStep.of_awaiting {cfg : Config} {nd nd' : Node} {out : List Message}
    (hs : AppStep cfg nd nd' out) {k : Key} {b : Bool} (h : nd.app = .awaiting k b) :
    nd'.app = .running := by
  cases hs <;> simp_all [Node.finish]

theorem RcvStep.app {cfg : Config} {nd nd' : Node} {out : List Message}
    (hs : RcvStep cfg nd nd' out) : nd'.app = nd.app := by
  cases hs <;> rfl

theorem Moved.app {cfg : Config} {st st' : Cluster} {t : ThreadId} {nd : Node}
    {out : List Message} (hm : Moved cfg st t nd out st') {i : SizeT} (hi : t ≠ (i, .app)) :
    (st'.nodes i).app = (st.nodes i).app := by
  by_cases hj : i = t.1
  · have hr : t.2 = .rcv := by
      cases hr : t.2 with
      | app => exact absurd (Prod.ext hj.symm hr) hi
      | rcv => rfl
    have hs := hm.node
    rw [hr] at hs
    rw [hj, hm.self, Node.push_app]
    exact RcvStep.app hs
  · rw [hm.other hj, Node.push_app]

theorem Moved.awaiting {cfg : Config} {st st' : Cluster} {t : ThreadId} {nd : Node}
    {out : List Message} (hm : Moved cfg st t nd out st') {i : SizeT} {k k' : Key} {b b' : Bool}
    (h : (st.nodes i).app = .awaiting k b) (h' : (st'.nodes i).app = .awaiting k' b') :
    (st'.nodes i).app = (st.nodes i).app := by
  by_cases hi : t = (i, .app)
  · subst hi
    have hs : AppStep cfg (st.nodes i) nd out := hm.node
    rw [hm.self, Node.push_app] at h'
    rw [hs.of_awaiting h] at h'
    cases h'
  · exact hm.app hi

theorem awaiting_of_token {cfg : Config} {st : Cluster} {i j : SizeT}
    (hj : NodeOk cfg j (st.nodes j)) {k : Key}
    (hbal : tokens (st.nodes k.homeNode) i k + tokens (st.nodes i) i k = awaits (st.nodes i) k)
    {m : Message} (hm : m ∈ mail (st.nodes j) k) (ht : isToken i k m = true) :
    ∃ b, (st.nodes i).app = .awaiting k b := by
  have hpos : 0 < tokens (st.nodes j) i k := List.countP_pos_iff.mpr ⟨m, hm, ht⟩
  refine awaits_pos ?_
  by_cases hji : j = i
  · rw [hji] at hpos
    omega
  · by_cases hjk : k.homeNode = j
    · rw [hjk] at hbal
      omega
    · have := hj.tokens_eq_zero (i := i) hji hjk
      omega

theorem Inv.awaiting_of_token {cfg : Config} {st : Cluster} (h : Inv cfg st) (hl : NoLockHeld st)
    {i j : SizeT} {k : Key} (hk : k.homeNode ≠ i) {m : Message} (hm : m ∈ mail (st.nodes j) k)
    (ht : isToken i k m = true) : ∃ b, (st.nodes i).app = .awaiting k b :=
  Pseudo.awaiting_of_token (h.nodes j) (h.balance hl i k hk) hm ht

theorem isToken_of_reply {m : Message} {i : SizeT} {k : Key} {v : Value}
    (hb : m.body = .replyData k v) (ht : m.target = i) : isToken i k m = true := by
  simp [isToken, hb, ht]

theorem isToken_of_ask {m : Message} {i : SizeT} {k : Key}
    (hb : m.body = .getData k ∨ m.body = .waitAndGet k) (ht : m.sender = i) :
    isToken i k m = true := by
  rcases hb with hb | hb <;> simp [isToken, hb, ht]

theorem Answering.mem_mail {id : SizeT} {nd : Node} {k : Key} {q : Message} {v : Value}
    (h : Answering id nd k q v) :
    q ∈ mail nd k ∧ (q.body = .getData k ∨ q.body = .waitAndGet k) := by
  rcases h.request with ⟨hr, hb⟩ | ⟨hc, hb⟩
  · refine ⟨Pseudo.mem_mail.mpr (Or.inl (List.mem_append_right _ ?_)), hb⟩
    rw [hr]
    exact List.mem_singleton.mpr rfl
  · exact ⟨Pseudo.mem_mail.mpr (Or.inr hc), Or.inr hb⟩

theorem Prov.stored_step {cfg : Config} {ts : List ThreadId} {st st' : Cluster} {t : ThreadId}
    {nd : Node} {out : List Message} (h : Prov cfg ts st) (hi : Inv cfg st)
    (hr : run cfg ts = some st) (hm : Moved cfg st t nd out st') (n : SizeT) (s : CStr) (v : Value)
    (hv : (st'.nodes n).kv.kvMap.get s = some v) : PutBefore cfg (ts ++ [t]) ⟨s, n⟩ v := by
  by_cases hn : n = t.1
  · rw [hn, hm.self, Node.push_kv] at hv
    rcases hm.node.stored_origin (hi.nodes t.1) hv with hv | hst
    · rw [hn]
      exact (h.stored t.1 s v hv).snoc t
    · rw [hn]
      cases hrole : t.2 with
      | app =>
        rw [hrole] at hst
        exact (PutBefore.now hr hst).snoc t
      | rcv =>
        rw [hrole] at hst
        obtain ⟨m, hrcv, hb⟩ := hst
        refine (h.puts t.1 ⟨s, t.1⟩ m _ v (mem_mail.mpr (Or.inl ?_)) hb).snoc t
        refine List.mem_append_right _ ?_
        rw [hrcv]
        exact List.mem_singleton.mpr rfl
  · rw [hm.other hn, Node.push_kv] at hv
    exact (h.stored n s v hv).snoc t

theorem Prov.puts_step {cfg : Config} {ts : List ThreadId} {st st' : Cluster} {t : ThreadId}
    {nd : Node} {out : List Message} (h : Prov cfg ts st) (hi : Inv cfg st)
    (hr : run cfg ts = some st) (hm : Moved cfg st t nd out st') (j : SizeT) (k' : Key)
    (m : Message) (k : Key) (v : Value) (hmem : m ∈ mail (st'.nodes j) k')
    (hb : m.body = .put k v) : PutBefore cfg (ts ++ [t]) k v := by
  rcases hm.origin hi hmem with ⟨i, hold⟩ | hf
  · exact (h.puts i k' m k v hold hb).snoc t
  · cases hf with
    | put k v ha =>
      cases hb
      exact (PutBefore.now hr ha).snoc t
    | request k b ha hb' => cases b <;> cases hb
    | reply k q v ha => cases hb
    | done ha => cases hb
    | teardown i ha => cases hb

theorem Prov.asks_step {cfg : Config} {ts : List ThreadId} {st st' : Cluster} {t : ThreadId}
    {nd : Node} {out : List Message} (h : Prov cfg ts st) (hi : Inv cfg st)
    (hi' : Inv cfg st') (hm : Moved cfg st t nd out st') (hl : NoLockHeld st') (i j : SizeT)
    (k : Key) (m : Message) (hmem : m ∈ mail (st'.nodes j) k)
    (hb : m.body = .waitAndGet k) (hs : m.sender = i) :
    (st'.nodes i).app ≠ .awaiting k false := by
  intro ha
  have hl0 := hm.noLockHeld hl
  have happ := (hi'.nodes i).app
  rw [ha] at happ
  rcases hm.origin hi hmem with ⟨j', hold⟩ | hf
  · -- the request was there: so the node was waiting, in the same call
    obtain ⟨b, ha0⟩ := hi.awaiting_of_token hl0 happ.1 hold (isToken_of_ask (Or.inr hb) hs)
    have heq := hm.awaiting ha0 ha
    rw [ha] at heq
    exact h.asks hl0 i j' k m hold hb hs heq.symm
  · -- the request is new: so it is a blocking one
    cases hf with
    | request k' b ha0 hb' =>
      have hk : k' = k ∧ b = true := by
        cases b <;> cases hb
        exact ⟨rfl, rfl⟩
      have hti : t.1 = i := by
        rw [← hs]
        cases b <;> rfl
      rw [← hti, hb', hk.2] at ha
      cases ha
    | put k v ha => cases hb
    | reply k q v ha => cases hb
    | done ha => cases hb
    | teardown i ha => cases hb

theorem Prov.replies_step {cfg : Config} {ts : List ThreadId} {st st' : Cluster} {t : ThreadId}
    {nd : Node} {out : List Message} (h : Prov cfg ts st) (hi : Inv cfg st) (hi' : Inv cfg st')
    (hr : run cfg ts = some st) (hr' : run cfg (ts ++ [t]) = some st')
    (hm : Moved cfg st t nd out st') (hl : NoLockHeld st') (i j : SizeT) (k : Key) (m : Message)
    (v : Value) (b : Bool) (hmem : m ∈ mail (st'.nodes j) k) (hb : m.body = .replyData k v)
    (ht : m.target = i) (ha : (st'.nodes i).app = .awaiting k b) :
    ∃ mo, Answered cfg (ts ++ [t]) i k b v mo := by
  have hl0 := hm.noLockHeld hl
  have happ := (hi'.nodes i).app
  rw [ha] at happ
  rcases hm.origin hi hmem with ⟨j', hold⟩ | hf
  · -- the reply was there, and the node is still in the same call
    obtain ⟨b', ha0⟩ := hi.awaiting_of_token hl0 happ.1 hold (isToken_of_reply hb ht)
    have heq := hm.awaiting ha0 ha
    rw [ha] at heq
    obtain ⟨mo, hans⟩ := h.replies hl0 i j' k m v b hold hb ht heq.symm
    exact ⟨mo, hans.snoc hr' (Or.inr ha)⟩
  · -- the reply is new: this is the moment
    cases hf with
    | reply k' q v' hans =>
      cases hb
      obtain ⟨hq, hqb⟩ := hans.mem_mail
      obtain ⟨b', ha0⟩ := hi.awaiting_of_token hl0 happ.1 hq (isToken_of_ask hqb ht)
      have heq := hm.awaiting ha0 ha
      rw [ha] at heq
      refine ⟨ts.length, ?_, (InGetSince.now hr (Or.inr heq.symm)).snoc hr' (Or.inr ha), st, ?_,
        ?_, ?_⟩
      · rw [List.length_append]
        omega
      · rwa [take_snoc t (Nat.le_refl _), List.take_length]
      · rw [hans.home]
        exact hans.stored
      · rintro rfl
        rw [hans.home]
        have hno : q.body ≠ .waitAndGet k := fun hw =>
          h.asks hl0 i t.1 k q hq hw ht heq.symm
        rcases hans.request with ⟨hrcv, hqb | hqb⟩ | ⟨-, hqb⟩
        · exact ⟨q, hrcv, hqb, ht⟩
        · exact absurd hqb hno
        · exact absurd hqb hno
    | put k v ha => cases hb
    | request k b ha hb' => cases b <;> cases hb
    | done ha => cases hb
    | teardown i ha => cases hb

/-- **The facts survive every step.** -/
theorem Prov.snoc {cfg : Config} {ts : List ThreadId} {st st' : Cluster} {t : ThreadId}
    (h : Prov cfg ts st) (hr : run cfg ts = some st) (hs : step cfg st t = some st') :
    Prov cfg (ts ++ [t]) st' := by
  have hi : Inv cfg st := Reachable.inv ⟨ts, hr⟩
  have hr' : run cfg (ts ++ [t]) = some st' := Schedule.run_snoc.mpr ⟨st, hr, hs⟩
  have hi' : Inv cfg st' := Reachable.inv ⟨_, hr'⟩
  rcases step_cases hs with ⟨nd, out, hm⟩ | ⟨f, -, rfl⟩
  · exact ⟨h.stored_step hi hr hm, h.puts_step hi hr hm, h.asks_step hi hi' hm,
      h.replies_step hi hi' hr hr' hm⟩
  · refine ⟨fun n s v hv => (h.stored n s v hv).snoc t,
      fun j k' m k v hmem hb => (h.puts j k' m k v hmem hb).snoc t, h.asks, ?_⟩
    intro hl i j k m v b hmem hb ht ha
    obtain ⟨mo, hans⟩ := h.replies hl i j k m v b hmem hb ht ha
    exact ⟨mo, hans.snoc hr' (Or.inr ha)⟩

theorem prov_run {cfg : Config} {ts : List ThreadId} {st : Cluster} (h : run cfg ts = some st) :
    Prov cfg ts st :=
  Schedule.run_induction (P := Prov cfg) (prov_init cfg)
    (fun _ _ _ _ hr hp hs => hp.snoc hr hs) h

/-! ### Blocking reads -/

/-- A step in which `getValue(k, b)` returns `r` on node `i`. -/
structure Returns (st st' : Cluster) (i : SizeT) (k : Key) (b : Bool) (r : Option Value) :
    Prop where
  inside : InGet (st.nodes i) k b
  outside : (st'.nodes i).app = .running
  result : (st'.nodes i).results = (st.nodes i).results ++ [r]

theorem Returns.moved {cfg : Config} {st st' : Cluster} {t : ThreadId} {i : SizeT} {k : Key}
    {b : Bool} {r : Option Value} (h : Returns st st' i k b r) (hs : step cfg st t = some st') :
    t = (i, .app) ∧ ∃ nd out, AppStep cfg (st.nodes i) nd out ∧ nd.app = .running ∧
      nd.results = (st.nodes i).results ++ [r] ∧ nd.lockHeld = (st'.nodes i).lockHeld := by
  have hne : (st'.nodes i).app ≠ (st.nodes i).app := by
    rw [h.outside]
    rcases h.inside with ha | ha <;> rw [ha] <;> exact fun he => by cases he
  rcases step_cases hs with ⟨nd, out, hm⟩ | ⟨f, -, rfl⟩
  · have ht : t = (i, .app) := by
      by_contra hn
      exact hne (hm.app hn)
    subst ht
    have hself := hm.self
    refine ⟨rfl, nd, out, hm.node, ?_, ?_, ?_⟩
    · rw [← h.outside, hself, Node.push_app]
    · rw [← h.result, hself, Node.push_results]
    · rw [hself, Node.push_lockHeld]
  · exact absurd rfl hne

/-- What `getFromNetwork_` takes out of the cache was answered during the call. -/
theorem Prov.taken {cfg : Config} {ts : List ThreadId} {st : Cluster} (h : Prov cfg ts st)
    (hi : Inv cfg st) (hl : NoLockHeld st) {i : SizeT} {k : Key} {b : Bool} {kv : KVStore}
    {v : Value} (ha : (st.nodes i).app = .awaiting k b) (ht : Taken (st.nodes i).kv kv k v) :
    ∃ mo, Answered cfg ts i k b v mo := by
  obtain ⟨m, k', hc, hb⟩ := ht.reply
  have hm : m ∈ (st.nodes i).kv.cached k := by
    rw [hc]
    exact List.mem_singleton.mpr rfl
  have happ := (hi.nodes i).app
  rw [ha] at happ
  obtain ⟨v', hb'⟩ := (hi.nodes i).cached_reply happ.1 hm
  obtain ⟨-, rfl⟩ : k' = k ∧ v = v' := by
    rw [hb] at hb'
    cases hb'
    exact ⟨rfl, rfl⟩
  exact h.replies hl i i k m v b (mem_mail.mpr (Or.inr hm)) hb'
    ((hi.nodes i).cached_accepts hm).target ha

/-- **What a blocking read returns.** On any node, after any run, `getValue(k, true)`
returns what the store of `k`'s home held under `k`'s string at some moment of the
call; and that value had been handed to a `put` of exactly that key before. -/
theorem getValue_returns_stored (cfg : Config) (hp : ¬ Polls cfg) (ts : List ThreadId)
    (st st' : Cluster) (t : ThreadId) (hr : run cfg ts = some st)
    (hs : step cfg st t = some st') (i : SizeT) (k : Key) (r : Option Value)
    (hret : Returns st st' i k true r) :
    ∃ v, r = some v ∧ ∃ m ≤ ts.length, InGetSince cfg ts m i k true ∧
      (∃ s, run cfg (ts.take m) = some s ∧
        (s.nodes k.homeNode).kv.kvMap.get k.kStr = some v) ∧
      PutBefore cfg (ts.take m) k v := by
  have hi : Inv cfg st := Reachable.inv ⟨ts, hr⟩
  have hl : NoLockHeld st := hi.noLockHeld hp
  obtain ⟨-, nd, out, happ, hrun, hres, -⟩ := hret.moved hs
  -- it is enough to know the moment
  have key : ∀ v, r = some v → (∃ m ≤ ts.length, InGetSince cfg ts m i k true ∧
      ∃ s, run cfg (ts.take m) = some s ∧ (s.nodes k.homeNode).kv.lookup k = some v) →
      ∃ v, r = some v ∧ ∃ m ≤ ts.length, InGetSince cfg ts m i k true ∧
        (∃ s, run cfg (ts.take m) = some s ∧
          (s.nodes k.homeNode).kv.kvMap.get k.kStr = some v) ∧
        PutBefore cfg (ts.take m) k v := by
    rintro v hv ⟨m, hle, hin, s, hrs, hlook⟩
    exact ⟨v, hv, m, hle, hin, ⟨s, hrs, hlook⟩,
      (prov_run hrs).stored k.homeNode k.kStr v hlook⟩
  have hnow := InGetSince.now hr hret.inside
  have hsid := (hi.nodes i).storeId
  cases happ with
  | getLocal k' b' r' ha hk hv hsome =>
    cases hret.inside.of_calling ha
    obtain rfl : r' = r := by simpa [Node.finish] using hres
    obtain ⟨v, rfl⟩ := Option.isSome_iff_exists.mp (hsome rfl)
    refine key v rfl ⟨ts.length, Nat.le_refl _, hnow, st, by rwa [List.take_length], ?_⟩
    rw [hk, hsid]
    exact hv
  | take k' b' val kv ha hlock htaken =>
    obtain ⟨rfl, rfl⟩ := hret.inside.of_awaiting ha
    obtain rfl : some val = r := by simpa [Node.finish] using hres
    obtain ⟨m, hans⟩ := (prov_run hr).taken hi hl ha htaken
    obtain ⟨s, hrs, hlook, -⟩ := hans.held
    exact key val rfl ⟨m, hans.le, hans.since, s, hrs, hlook⟩
  | giveUp k' ha hlock hg => cases (hret.inside.of_awaiting ha).2
  | putRemote k' data ha hk ht => cases hret.inside.of_calling ha
  | drain k' kv replies ha hlock hd ht =>
    rcases hret.inside with hin | hin <;> rw [hin] at ha <;> cases ha
  | _ => cases hrun

/-- Node `0` gets the value that node `1` put while it was waiting. -/
theorem getValue_returns_stored_pair :
    ∃ v, some ⟨[7]⟩ = some v ∧ ∃ m ≤ (pairSchedule.take 10).length,
      InGetSince pairCfg (pairSchedule.take 10) m 0 ⟨⟨[97], by decide⟩, 1⟩ true ∧
      (∃ s, run pairCfg ((pairSchedule.take 10).take m) = some s ∧
        (s.nodes 1).kv.kvMap.get ⟨[97], by decide⟩ = some v) ∧
      PutBefore pairCfg ((pairSchedule.take 10).take m) ⟨⟨[97], by decide⟩, 1⟩ v :=
  getValue_returns_stored pairCfg not_polls_pairCfg (pairSchedule.take 10)
    ((run pairCfg (pairSchedule.take 10)).get rfl)
    ((step pairCfg ((run pairCfg (pairSchedule.take 10)).get rfl) (0, .app)).get rfl) (0, .app)
    (Option.some_get _).symm (Option.some_get _).symm 0 ⟨⟨[97], by decide⟩, 1⟩ (some ⟨[7]⟩)
    ⟨Or.inr rfl, rfl, by decide⟩

/-! ### Non-blocking reads -/

/-- The `get` of a key homed elsewhere that returns `r` in the step from `st` to
`st'` has done what it should: it returns what the home had stored when it
handled the request, null only if that was nothing, it has let go of
`msgCacheLock_`, and no reply to it is in the cache or will come. -/
structure GetOk (cfg : Config) (ts : List ThreadId) (st' : Cluster) (i : SizeT) (k : Key)
    (r : Option Value) : Prop where
  stored : ∀ v, r = some v → ∃ m ≤ ts.length, InGetSince cfg ts m i k false ∧
    ∃ s, run cfg (ts.take m) = some s ∧ HandlesGetData (s.nodes k.homeNode) i k ∧
      (s.nodes k.homeNode).kv.lookup k = some v
  absent : r = none → ∀ m ≤ ts.length, InGetSince cfg ts m i k false →
    ∀ s, run cfg (ts.take m) = some s → HandlesGetData (s.nodes k.homeNode) i k →
      (s.nodes k.homeNode).kv.lookup k = none
  released : (st'.nodes i).lockHeld = false
  settled : tokens (st'.nodes k.homeNode) i k + tokens (st'.nodes i) i k = 0

/-- Along the run every `get` of a key homed elsewhere has done what it should,
and handling its request has not ended the process. -/
structure GetsOk (cfg : Config) (ts : List ThreadId) : Prop where
  returns : ∀ ts₁ t st st' i k r, ts₁ ++ [t] <+: ts → run cfg ts₁ = some st →
    step cfg st t = some st' → k.homeNode ≠ i → Returns st st' i k false r →
    GetOk cfg ts₁ st' i k r
  handled : ∀ ts₁ h st st' i k, ts₁ ++ [(h, .rcv)] <+: ts → run cfg ts₁ = some st →
    step cfg st (h, .rcv) = some st' → HandlesGetData (st.nodes h) i k → st'.fault = none

/-- A step meets the condition: an application that is about to look for the reply
to its `get` has it in its cache, and a receiver that is handling a `GetDataMsg`
has the key stored. -/
structure Prompt (st : Cluster) (t : ThreadId) : Prop where
  deposited : ∀ i k, t = (i, .app) → (st.nodes i).app = .awaiting k false →
    (st.nodes i).kv.msgCache.get k ≠ none
  present : ∀ h i k, t = (h, .rcv) → HandlesGetData (st.nodes h) i k →
    (st.nodes h).kv.lookup k ≠ none

def AllPrompt (cfg : Config) (ts : List ThreadId) : Prop :=
  ∀ ts₁ t st, ts₁ ++ [t] <+: ts → run cfg ts₁ = some st → Prompt st t

theorem AllPrompt.of_snoc {cfg : Config} {ts : List ThreadId} {t : ThreadId}
    (h : AllPrompt cfg (ts ++ [t])) : AllPrompt cfg ts :=
  fun ts₁ t₁ st hp hr => h ts₁ t₁ st (hp.trans (List.prefix_append ts [t])) hr

/-- **No lock is lost in a run whose steps meet the condition.** -/
theorem AllPrompt.noLockHeld {cfg : Config} {ts : List ThreadId} {st : Cluster}
    (hr : run cfg ts = some st) (h : AllPrompt cfg ts) : NoLockHeld st := by
  revert h
  refine Schedule.run_induction (P := fun ts st => AllPrompt cfg ts → NoLockHeld st)
    (fun _ _ => rfl) ?_ hr
  intro ts st t st' hrun ih hs hall
  have hl := ih hall.of_snoc
  have hprompt := hall ts t st (List.prefix_refl _) hrun
  rcases step_cases hs with ⟨nd, out, hm⟩ | ⟨f, -, rfl⟩
  · refine hm.forall (P := fun _ nd => nd.lockHeld = false) hl ?_ fun _ _ hp => hp
    have hnode := hm.node
    cases hrole : t.2 with
    | rcv =>
      rw [hrole] at hnode
      exact (RcvStep.lockHeld hnode).trans (hl t.1)
    | app =>
      rw [hrole] at hnode
      replace hnode : AppStep cfg (st.nodes t.1) nd out := hnode
      cases hnode with
      | giveUp k ha hlock hg =>
        exact absurd hg (hprompt.deposited t.1 k (Prod.ext rfl hrole) ha)
      | _ => exact hl t.1
  · exact hl

/-- A step that looks for the reply of a `get` and finds it does what it should. -/
theorem getOk_of_deposited {cfg : Config} {ts : List ThreadId} {st st' : Cluster} {t : ThreadId}
    (hr : run cfg ts = some st) (hl : NoLockHeld st) (hl' : NoLockHeld st')
    (hs : step cfg st t = some st') {i : SizeT} {k : Key} (hk : k.homeNode ≠ i)
    {r : Option Value} (hret : Returns st st' i k false r)
    (hdep : (st.nodes i).app = .awaiting k false → (st.nodes i).kv.msgCache.get k ≠ none) :
    GetOk cfg ts st' i k r := by
  have hi : Inv cfg st := Reachable.inv ⟨ts, hr⟩
  have hi' : Inv cfg st' := (Reachable.next ⟨ts, hr⟩ hs).inv
  have hsettled : tokens (st'.nodes k.homeNode) i k + tokens (st'.nodes i) i k = 0 := by
    rw [hi'.balance hl' i k hk, awaits, hret.outside]
  obtain ⟨-, nd, out, happ, hrun, hres, -⟩ := hret.moved hs
  have hsid := (hi.nodes i).storeId
  cases happ with
  | getLocal k' b' r' ha hk' hv hsome =>
    cases hret.inside.of_calling ha
    exact absurd (hk'.trans hsid) hk
  | take k' b' val kv ha hlock htaken =>
    obtain ⟨rfl, rfl⟩ := hret.inside.of_awaiting ha
    obtain rfl : some val = r := by simpa [Node.finish] using hres
    obtain ⟨m, hans⟩ := (prov_run hr).taken hi hl ha htaken
    obtain ⟨s, hrs, hlook, hhandle⟩ := hans.held
    refine ⟨?_, (by rintro ⟨⟩), hl' i, hsettled⟩
    rintro v ⟨⟩
    exact ⟨m, hans.le, hans.since, s, hrs, hhandle rfl, hlook⟩
  | giveUp k' ha hlock hg =>
    obtain ⟨rfl, -⟩ := hret.inside.of_awaiting ha
    exact absurd hg (hdep ha)
  | putRemote k' data ha hk ht => cases hret.inside.of_calling ha
  | drain k' kv replies ha hlock hd ht =>
    rcases hret.inside with hin | hin <;> rw [hin] at ha <;> cases ha
  | _ => cases hrun

/-- Handling a `GetDataMsg` ends the process exactly when the key is missing. -/
theorem fault_of_handlesGetData {cfg : Config} {st st' : Cluster} (hi : Inv cfg st) {h : SizeT}
    (hs : step cfg st (h, .rcv) = some st') {i : SizeT} {k : Key}
    (hh : HandlesGetData (st.nodes h) i k) :
    st'.fault = none ↔ (st.nodes h).kv.lookup k ≠ none := by
  obtain ⟨q, hrcv, hb, -⟩ := hh
  have hok := (hi.nodes h).rcv
  rw [hrcv] at hok
  have hkind := hok.kind
  have hk := (hok.getData k hb).1
  rw [hb] at hkind
  have hstep : nodeStep cfg (st.nodes h) .rcv = handle cfg (st.nodes h) q := by
    show rcvStep cfg (st.nodes h) = _
    rw [rcvStep, hrcv]
  rw [handle, hkind, hb] at hstep
  simp only [Body.kind, lookupHere, if_pos (hk.trans (hi.nodes h).storeId.symm)] at hstep
  rw [step] at hs
  split at hs
  · rename_i hc
    rw [hstep] at hs
    cases hv : (st.nodes h).kv.lookup k with
    | none =>
      rw [hv] at hs
      cases hs
      simp
    | some v =>
      rw [hv] at hs
      cases hs
      simp [hc.1]
  · cases hs

/-- **The non-blocking `get`.** In every run: each `get` of a key homed elsewhere
does what it should, exactly where every step meets the condition: the reply is
in the caller's cache when the caller takes `msgCacheLock_`, and the key is
stored when its home handles the request. -/
theorem get_ok_iff (cfg : Config) (ts : List ThreadId) (st : Cluster)
    (hr : run cfg ts = some st) : GetsOk cfg ts ↔ AllPrompt cfg ts := by
  have hrun : ∀ {ts₁ : List ThreadId} {t : ThreadId} {s : Cluster}, ts₁ ++ [t] <+: ts →
      run cfg ts₁ = some s → ∃ s', step cfg s t = some s' ∧ run cfg (ts₁ ++ [t]) = some s' := by
    rintro ts₁ t s ⟨us, rfl⟩ hs
    obtain ⟨s', hs', -⟩ := Schedule.run_prefix hr
    obtain ⟨s₁, hs₁, hstep⟩ := Schedule.run_snoc.mp hs'
    obtain rfl : s = s₁ := Option.some.inj (hs.symm.trans hs₁)
    exact ⟨s', hstep, hs'⟩
  constructor
  · intro h ts₁ t s hp hs
    obtain ⟨s', hstep, hs'⟩ := hrun hp hs
    have hi : Inv cfg s := Reachable.inv ⟨ts₁, hs⟩
    refine ⟨?_, ?_⟩
    · -- without its reply the call would return and keep the lock
      rintro i k rfl ha hg
      have hok := hi.nodes i
      have happ := hok.app
      rw [ha] at happ
      rcases step_cases hstep with ⟨nd, out, hm⟩ | ⟨f, he, rfl⟩
      · have hret : ∃ r, Returns s s' i k false r := by
          have hself := hm.self
          have hnode : AppStep cfg (s.nodes i) nd out := hm.node
          cases hnode with
          | take k' b val kv ha' hlock htaken =>
            refine ⟨some val, Or.inr ha, by rw [hself]; rfl, by rw [hself]; rfl⟩
          | giveUp k' ha' hlock hg' =>
            refine ⟨none, Or.inr ha, by rw [hself]; rfl, by rw [hself]; rfl⟩
          | _ => simp_all
        obtain ⟨r, hret⟩ := hret
        have hgood := (h.returns ts₁ _ s s' i k r hp hs hstep happ.1 hret).released
        have hnode : AppStep cfg (s.nodes i) nd out := hm.node
        rw [hm.self, Node.push_lockHeld] at hgood
        cases hnode with
        | take k' b val kv ha' hlock htaken =>
          rw [ha] at ha'
          cases ha'
          obtain ⟨m, k₀, hc, -⟩ := htaken.reply
          rw [KVStore.cached, hg] at hc
          cases hc
        | giveUp k' ha' hlock hg' => cases hgood
        | _ => simp_all
      · -- the cache section does not fail on an empty cache
        replace he : appStep cfg (s.nodes i) = some (.error f) := he
        rw [appStep, ha] at he
        simp only [getFromNetwork_, KVStore.takeReply_eq_none.mpr hg] at he
        split at he <;> cases he
    · rintro n i k rfl hh
      exact (fault_of_handlesGetData hi hstep hh).mp (h.handled ts₁ n s s' i k hp hs hstep hh)
  · intro h
    refine ⟨?_, ?_⟩
    · intro ts₁ t s s' i k r hp hs hstep hk hret
      have hall : AllPrompt cfg (ts₁ ++ [t]) :=
        fun ts₂ u s₂ hp₂ hs₂ => h ts₂ u s₂ (hp₂.trans hp) hs₂
      have hs' : run cfg (ts₁ ++ [t]) = some s' := Schedule.run_snoc.mpr ⟨s, hs, hstep⟩
      refine getOk_of_deposited hs (hall.of_snoc.noLockHeld hs) (hall.noLockHeld hs') hstep hk
        hret ?_
      intro ha
      exact (h ts₁ t s hp hs).deposited i k (hret.moved hstep).1 ha
    · intro ts₁ n s s' i k hp hs hstep hh
      exact (fault_of_handlesGetData (Reachable.inv ⟨ts₁, hs⟩) hstep hh).mpr
        ((h ts₁ _ s hp hs).present n i k rfl hh)

/-- Node `0` looks once for a key that node `1` puts. -/
def pollCfg : Config where
  numNodes := 2
  serverIndex := 0
  program i rs :=
    if rs = [] then
      if i = 0 then some (.getValue ⟨⟨[97], CStr.nulFree_a⟩, 1⟩ false)
      else some (.put ⟨⟨[97], CStr.nulFree_a⟩, 1⟩ ⟨[7]⟩)
    else none

/-- Node `0` asks when the value is stored, and waits until the reply is there. -/
def promptSchedule : List ThreadId :=
  [(1, .app), (1, .app), (1, .app), (0, .app), (0, .app), (1, .rcv), (1, .rcv), (1, .rcv),
    (0, .rcv), (0, .rcv), (0, .app)]

/-- Node `0` asks when the value is stored, and looks for the reply at once. -/
def hastySchedule : List ThreadId :=
  [(1, .app), (1, .app), (1, .app), (0, .app), (0, .app), (0, .app)]

example : ((run pollCfg promptSchedule).map fun st => (st.nodes 0).results) =
    some [some ⟨[7]⟩] := by decide

def isPrompt (st : Cluster) (t : ThreadId) : Bool :=
  match t.2, (st.nodes t.1).app, (st.nodes t.1).rcv with
  | .app, .awaiting k false, _ => ((st.nodes t.1).kv.msgCache.get k).isSome
  | .rcv, _, .handling m =>
    match m.body with
    | .getData k => ((st.nodes t.1).kv.lookup k).isSome
    | _ => true
  | _, _, _ => true

theorem prompt_of_isPrompt {st : Cluster} {t : ThreadId} (h : isPrompt st t = true) :
    Prompt st t := by
  refine ⟨?_, ?_⟩
  · rintro i k rfl ha
    simp only [isPrompt, ha] at h
    exact Option.isSome_iff_ne_none.mp h
  · rintro n i k rfl ⟨m, hrcv, hbody, -⟩
    simp only [isPrompt, hrcv, hbody] at h
    exact Option.isSome_iff_ne_none.mp h

theorem get_ok_iff_prompt : GetsOk pollCfg promptSchedule := by
  have hsome : (run pollCfg promptSchedule).isSome = true := by decide
  obtain ⟨st, hst⟩ := Option.isSome_iff_exists.mp hsome
  have hprompt : Schedule.always (step pollCfg) isPrompt Cluster.init promptSchedule = true := by
    decide
  exact (get_ok_iff pollCfg promptSchedule st hst).mpr fun ts₁ t st₁ hp hr =>
    prompt_of_isPrompt (Schedule.of_always hprompt hp hr)

/-- **The hasty `get` returns null for a value that is stored, and keeps the lock.** -/
theorem get_keeps_lock : ¬ GetsOk pollCfg hastySchedule ∧
    ∃ st, run pollCfg hastySchedule = some st ∧
      (st.nodes 1).kv.lookup ⟨⟨[97], by decide⟩, 1⟩ = some ⟨[7]⟩ ∧
      (st.nodes 0).results = [none] ∧ (st.nodes 0).app = .running ∧
      (st.nodes 0).lockHeld = true := by
  refine ⟨?_, (run pollCfg hastySchedule).get rfl, (Option.some_get _).symm, by decide, by decide,
    by decide, by decide⟩
  intro h
  have hbad := (h.returns (hastySchedule.take 5) (0, .app)
    ((run pollCfg (hastySchedule.take 5)).get rfl)
    ((step pollCfg ((run pollCfg (hastySchedule.take 5)).get rfl) (0, .app)).get rfl) 0
    ⟨⟨[97], by decide⟩, 1⟩ none (by decide) (Option.some_get _).symm (Option.some_get _).symm
    (by decide) ⟨Or.inr rfl, rfl, by decide⟩).released
  exact absurd hbad (by decide)

end Pseudo

end Eau2
