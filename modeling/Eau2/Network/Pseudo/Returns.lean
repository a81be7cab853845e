import Eau2.Base.Fair
import Eau2.Network.Pseudo.Sessions

/-!
# A read comes back

In a fair run without non-blocking `get`s, with every key homed on a node and node `0`
as the server, no assertion fails and no lock is lost.  A receiver with a message in
its queue gets to it, since nothing overtakes a message and nothing is sent to a node
behind its `TeardownMsg` (`handles`).  So the writer's request reaches the home of the
key, is answered from what is stored, and the reply reaches the writer.

* `handles`: **every message that is sent is handled.**
* `own_read_returns`: **the writer's reads return.**
-/

namespace Eau2

namespace Pseudo

abbrev Fair (cfg : Config) := Schedule.FairRun (step cfg) Cluster.init

/-- The programs are such that no assertion fails. -/
structure Sound (cfg : Config) : Prop where
  blocking : ¬ Polls cfg
  homed : Homed cfg
  server : cfg.serverIndex = 0

section Receiver

variable {cfg : Config}

theorem Sound.lockHeld (hc : Sound cfg) {st : Cluster} (h : Reachable cfg st) (i : SizeT) :
    (st.nodes i).lockHeld = false := h.inv.noLockHeld hc.blocking i

theorem Sound.alive (hc : Sound cfg) {st : Cluster} (h : Reachable cfg st) : st.fault = none :=
  h.fault_eq_none hc.blocking hc.homed hc.server

/-- A step that ends the process is not taken. -/
theorem Sound.moved (hc : Sound cfg) {st st' : Cluster} {t : ThreadId} (h : Reachable cfg st)
    (hs : step cfg st t = some st') : ∃ nd out, Moved cfg st t nd out st' := by
  rcases step_cases hs with hm | ⟨f, -, rfl⟩
  · exact hm
  · have hno : some f = none := hc.alive (h.next hs)
    cases hno

theorem Sound.ready (hc : Sound cfg) {st : Cluster} (h : Reachable cfg st) {t : ThreadId}
    (hlt : t.1 < cfg.numNodes) {o : Outcome} (ho : nodeStep cfg (st.nodes t.1) t.2 = some o) :
    (step cfg st t).isSome := by
  rw [step, if_pos ⟨hc.alive h, hlt⟩, ho]
  cases o <;> rfl

theorem exists_rcvStep {nd : Node} (hl : nd.lockHeld = false) (hne : nd.rcv ≠ .exited)
    (hq : nd.rcv = .receiving → nd.queue ≠ []) : ∃ o, rcvStep cfg nd = some o := by
  rw [rcvStep]
  cases hr : nd.rcv with
  | receiving =>
    cases hqueue : nd.queue with
    | nil => exact absurd hqueue (hq hr)
    | cons m queue => exact ⟨_, rfl⟩
  | handling m =>
    show ∃ o, handle cfg nd m = some o
    rw [handle]
    split
    · split <;> exact ⟨_, rfl⟩
    · split <;> exact ⟨_, rfl⟩
    · rw [hl]
      exact ⟨_, rfl⟩
    · split <;> exact ⟨_, rfl⟩
    · exact ⟨_, rfl⟩
    · exact ⟨_, rfl⟩
    · exact ⟨_, rfl⟩
    · exact ⟨_, rfl⟩
    · exact ⟨_, rfl⟩
  | replying m => exact ⟨_, rfl⟩
  | parking k m =>
    simp only [hl]
    exact ⟨_, rfl⟩
  | draining k =>
    simp only [hl]
    exact ⟨_, rfl⟩
  | tearingDown i =>
    show ∃ o, (if i < cfg.numNodes then _ else _) = some o
    split <;> exact ⟨_, rfl⟩
  | exited => exact absurd hr hne

theorem Down.not_exited {ts : List ThreadId} {st : Cluster} (h : Down cfg ts st) {j : SizeT}
    {m : Message} (hm : m ∈ inbox (st.nodes j)) : (st.nodes j).rcv ≠ .exited := by
  intro he
  obtain ⟨m', hm', hb⟩ := (h.exited j).mp he
  have hclosed : (toNode (sentLog cfg ts) j).Pairwise
      fun m m' => m.body = .teardown → m'.target ≠ m.target := h.closed.sublist List.filter_sublist
  have htarget : ∀ x ∈ toNode (sentLog cfg ts) j, x.target = j := fun x hx => (mem_toNode.mp hx).2
  rw [h.fifo] at hclosed htarget
  refine (List.pairwise_append.mp hclosed).2.2 m' hm' m hm hb ?_
  rw [htarget m (List.mem_append_right _ hm), htarget m' (List.mem_append_left _ hm')]

/-- What a receiver still does before it takes the next message. -/
def rest (cfg : Config) : RcvPc → ℕ
  | .receiving => 0
  | .handling _ => cfg.numNodes.toNat + 3
  | .tearingDown i => cfg.numNodes.toNat - i.toNat + 1
  | _ => 1

/-- **A receiver takes the next message, or gets on with the one it has.** -/
theorem RcvStep.rest {nd nd' : Node} {out : List Message} (hs : RcvStep cfg nd nd' out)
    (hne : nd'.rcv ≠ .exited) :
    (∃ m, nd.rcv = .receiving ∧ nd.queue = m :: nd'.queue ∧ nd'.rcv = .handling m) ∨
      nd'.queue = nd.queue ∧ Pseudo.rest cfg nd'.rcv < Pseudo.rest cfg nd.rcv := by
  cases hs with
  | receive m queue hr hq => exact Or.inl ⟨m, hr, hq, rfl⟩
  | handleTeardown m hr hk => exact absurd rfl hne
  | handleDone m hr hb hz hlt =>
    refine Or.inr ⟨rfl, ?_⟩
    show Pseudo.rest cfg (if _ then .tearingDown 0 else .receiving) < Pseudo.rest cfg nd.rcv
    rw [hr]
    split
    · show cfg.numNodes.toNat - 0 + 1 < cfg.numNodes.toNat + 3
      omega
    · exact Nat.zero_lt_succ _
  | broadcast i hr hi =>
    refine Or.inr ⟨rfl, ?_⟩
    have hlt := UInt64.lt_iff_toNat_lt.mp hi
    have hn := cfg.numNodes.toNat_lt
    show cfg.numNodes.toNat - (i + 1).toNat + 1 < Pseudo.rest cfg nd.rcv
    rw [hr, UInt64.toNat_add, UInt64.toNat_one, Nat.mod_eq_of_lt (by omega)]
    show _ < cfg.numNodes.toNat - i.toNat + 1
    omega
  | serve m k val hr hb hk hv =>
    refine Or.inr ⟨rfl, ?_⟩
    rw [hr]
    show 1 < cfg.numNodes.toNat + 3
    omega
  | miss m k hr hb hk hv =>
    refine Or.inr ⟨rfl, ?_⟩
    rw [hr]
    show 1 < cfg.numNodes.toNat + 3
    omega
  | put m k data hr hb hk =>
    refine Or.inr ⟨rfl, ?_⟩
    rw [hr]
    show 1 < cfg.numNodes.toNat + 3
    omega
  | _ =>
    refine Or.inr ⟨rfl, ?_⟩
    simp [*, Pseudo.rest]

theorem RcvStep.inbox_eq {nd nd' : Node} {out : List Message} (hs : RcvStep cfg nd nd' out) :
    Pseudo.inbox nd' = nd.queue := (List.append_cancel_left hs.inbox).symm

/-! ### Messages are handled -/

variable {ρ : Fair cfg}

theorem reachable (ρ : Fair cfg) (n : ℕ) : Reachable cfg (ρ.state n) := ⟨ρ.schedule n, ρ.run n⟩

theorem Sound.moves (hc : Sound cfg) {n : ℕ} {t : ThreadId} (ht : ρ.thread n = some t) :
    ∃ nd out, Moved cfg (ρ.state n) t nd out (ρ.state (n + 1)) :=
  hc.moved (reachable ρ n) (ρ.moves n t ht)

theorem Sound.rcv_stays (hc : Sound cfg) {n : ℕ} {j : SizeT} (hn : ρ.thread n ≠ some (j, .rcv)) :
    ((ρ.state (n + 1)).nodes j).rcv = ((ρ.state n).nodes j).rcv ∧
      ((ρ.state n).nodes j).queue <+: ((ρ.state (n + 1)).nodes j).queue := by
  cases ht : ρ.thread n with
  | none =>
    rw [ρ.waits n ht]
    exact ⟨rfl, List.prefix_rfl⟩
  | some t =>
    obtain ⟨nd, out, hm⟩ := hc.moves ht
    obtain ⟨hrcv, -, hin⟩ := hm.rcv (j := j) (by rintro rfl; exact hn ht)
    refine ⟨hrcv, toNode out j, ?_⟩
    have hcur : current ((ρ.state (n + 1)).nodes j) = current ((ρ.state n).nodes j) := by
      rw [current, hrcv, current]
    rw [inbox, inbox, hcur, List.append_assoc] at hin
    exact (List.append_cancel_left hin).symm

/-- **A receiver with something to do moves.** -/
theorem Sound.rcv_moves (hc : Sound cfg) {j : SizeT} (hlt : j < cfg.numNodes) {n : ℕ}
    (hne : ((ρ.state n).nodes j).rcv ≠ .exited)
    (hq : ((ρ.state n).nodes j).rcv = .receiving → ((ρ.state n).nodes j).queue ≠ []) :
    ∃ m, n ≤ m ∧ ρ.thread m = some (j, .rcv) ∧
      ((ρ.state m).nodes j).rcv = ((ρ.state n).nodes j).rcv ∧
      ((ρ.state n).nodes j).queue <+: ((ρ.state m).nodes j).queue := by
  refine ρ.ensures ⟨rfl, List.prefix_rfl⟩ ?_ ?_
  · intro m _ ⟨hrcv, hpre⟩
    have hqueue : ((ρ.state m).nodes j).rcv = .receiving →
        ((ρ.state m).nodes j).queue ≠ [] := by
      intro hr hnil
      rw [hnil, List.prefix_nil] at hpre
      exact hq (hrcv.symm.trans hr) hpre
    obtain ⟨o, ho⟩ : ∃ o, rcvStep cfg ((ρ.state m).nodes j) = some o :=
      exists_rcvStep (hc.lockHeld (reachable ρ m) j) (by rwa [hrcv]) hqueue
    exact hc.ready (reachable ρ m) hlt ho
  · intro m _ ⟨hrcv, hpre⟩ ht
    obtain ⟨hrcv', hpre'⟩ := hc.rcv_stays ht
    exact ⟨hrcv'.trans hrcv, hpre.trans hpre'⟩

theorem Sound.busy_moves (hc : Sound cfg) {j : SizeT} (hlt : j < cfg.numNodes) {n : ℕ}
    {pc : RcvPc} (hr : ((ρ.state n).nodes j).rcv = pc) (hne : pc ≠ .exited)
    (hne' : pc ≠ .receiving) :
    ∃ m, n ≤ m ∧ ρ.thread m = some (j, .rcv) ∧ ((ρ.state m).nodes j).rcv = pc := by
  subst hr
  obtain ⟨m, hm, ht, hrcv, -⟩ := hc.rcv_moves hlt hne fun he => absurd he hne'
  exact ⟨m, hm, ht, hrcv⟩

/-- **Every message that is sent is handled.** -/
theorem handles (hc : Sound cfg) {j : SizeT} (hlt : j < cfg.numNodes) {n : ℕ} {q : Message}
    (hq : q ∈ ((ρ.state n).nodes j).queue) :
    ∃ m, n ≤ m ∧ ((ρ.state m).nodes j).rcv = .handling q := by
  obtain ⟨l, l', hqueue⟩ := List.append_of_mem hq
  -- by induction on the steps before the message is taken
  induction hwork : (cfg.numNodes.toNat + 4) * l.length + rest cfg ((ρ.state n).nodes j).rcv
    using Nat.strong_induction_on generalizing n l l' with
  | _ work ih =>
    have hdown : ∀ m, Down cfg (ρ.schedule m) (ρ.state m) :=
      fun m => down_run hc.blocking hc.server (ρ.run m)
    have hne : ((ρ.state n).nodes j).rcv ≠ .exited :=
      (hdown n).not_exited (List.mem_append_right _ hq)
    obtain ⟨m, hle, ht, hrcv, hpre⟩ := hc.rcv_moves hlt hne
      fun _ hnil => by rw [hnil] at hq; cases hq
    obtain ⟨nd, out, hm⟩ := hc.moves ht
    obtain ⟨hs, hself⟩ := hm.rcvStep
    obtain ⟨new, hnew⟩ := hpre
    rw [hqueue, List.append_assoc, List.cons_append] at hnew
    have hnd : nd.rcv ≠ .exited := by
      have hmem : q ∈ inbox ((ρ.state (m + 1)).nodes j) := by
        have hin : q ∈ inbox nd := by
          rw [hs.inbox_eq, ← hnew]
          exact List.mem_append_right _ List.mem_cons_self
        rw [hself, inbox, Node.push_queue, ← List.append_assoc]
        exact List.mem_append_left _ hin
      have := (hdown (m + 1)).not_exited hmem
      rwa [hself, Node.push_rcv] at this
    have hnext : ∀ l₁ l₂, nd.queue = l₁ ++ q :: l₂ →
        (cfg.numNodes.toNat + 4) * l₁.length + rest cfg nd.rcv < work →
        ∃ m, n ≤ m ∧ ((ρ.state m).nodes j).rcv = .handling q := by
      intro l₁ l₂ hl hlt'
      have hqueue' : ((ρ.state (m + 1)).nodes j).queue = l₁ ++ q :: (l₂ ++ toNode out j) := by
        rw [hself, Node.push_queue, hl, List.append_assoc]
        rfl
      have hmem : q ∈ ((ρ.state (m + 1)).nodes j).queue := by
        rw [hqueue']
        exact List.mem_append_right _ List.mem_cons_self
      obtain ⟨m', hle', hh⟩ := ih _ hlt' hmem l₁ _ hqueue' (by rw [hself, Node.push_rcv])
      exact ⟨m', by omega, hh⟩
    rcases hs.rest hnd with ⟨x, hrecv, hx, hhand⟩ | ⟨hsame, hless⟩
    · rw [← hnew] at hx
      cases l with
      | nil =>
        obtain ⟨rfl, -⟩ := List.cons.inj hx
        refine ⟨m + 1, by omega, ?_⟩
        rw [hself, Node.push_rcv, hhand]
      | cons a l =>
        refine hnext l _ (List.cons.inj hx).2.symm ?_
        rw [hhand, ← hwork, ← hrcv, hrecv, List.length_cons, Nat.mul_succ]
        show _ + (cfg.numNodes.toNat + 3) < _ + 0
        omega
    · refine hnext l _ (hsame.trans hnew.symm) ?_
      rw [hrcv] at hless
      omega

end Receiver

/-! ### A read that does not return -/

section Waiting

variable {cfg : Config} {ρ : Fair cfg} {k : Key} {w : SizeT} {n₀ : ℕ}

/-- From moment `n₀` on node `w` waits for a key that is homed elsewhere. -/
structure Awaiting (cfg : Config) (ρ : Fair cfg) (k : Key) (w : SizeT) (n₀ : ℕ) : Prop where
  sound : Sound cfg
  away : k.homeNode ≠ w
  ltHome : k.homeNode < cfg.numNodes
  ltReader : w < cfg.numNodes
  awaiting : ∀ m, n₀ ≤ m → ((ρ.state m).nodes w).app = .awaiting k true

theorem Awaiting.not_moves (h : Awaiting cfg ρ k w n₀) {m : ℕ} (hm : n₀ ≤ m) :
    ρ.thread m ≠ some (w, .app) := by
  intro ht
  obtain ⟨nd, out, hmoved⟩ := h.sound.moves ht
  have hs : AppStep cfg ((ρ.state m).nodes w) nd out := hmoved.node
  have hrun := hs.of_awaiting (h.awaiting m hm)
  have hwait := h.awaiting (m + 1) (by omega)
  rw [hmoved.self, Node.push_app, hrun] at hwait
  cases hwait

theorem RcvStep.cached {id : SizeT} {nd nd' : Node} {out : List Message}
    (h : NodeOk cfg id nd) (hs : RcvStep cfg nd nd' out) (hk : k.homeNode ≠ id) {x : Message}
    (hx : x ∈ nd.kv.cached k) : x ∈ nd'.kv.cached k := by
  have hrcv := h.rcv
  have hadd : ∀ k' m, x ∈ (nd.kv.addToCache_ k' m).cached k := by
    intro k' m
    rw [KVStore.cached_addToCache]
    split
    · rename_i hkk
      rw [hkk]
      exact List.mem_append_left _ hx
    · exact hx
  cases hs with
  | addReply m k' val hr hb hl => exact hadd k' m
  | park k' m hr hl => exact hadd k' m
  | drain k' kv replies hr hl hd ht =>
    rw [hr] at hrcv
    have hne : k' ≠ k := by
      rintro rfl
      exact hk hrcv.1
    show x ∈ kv.cached k
    rw [KVStore.cached_of_drained hd, if_neg hne]
    exact hx
  | _ => exact hx

theorem Awaiting.not_cached (h : Awaiting cfg ρ k w n₀) {n : ℕ} (hn : n₀ ≤ n) {x : Message} :
    x ∉ ((ρ.state n).nodes w).kv.cached k := by
  intro hx
  have hready : ∀ m, n ≤ m → x ∈ ((ρ.state m).nodes w).kv.cached k →
      (step cfg (ρ.state m) (w, .app)).isSome := by
    intro m hm hx
    have ho : ∃ o, nodeStep cfg ((ρ.state m).nodes w) .app = some o := by
      show ∃ o, appStep cfg _ = some o
      rw [appStep, h.awaiting m (hn.trans hm)]
      simp only [getFromNetwork_, h.sound.lockHeld (reachable ρ m) w]
      cases htake : ((ρ.state m).nodes w).kv.takeReply k with
      | none =>
        rw [KVStore.cached, KVStore.takeReply_eq_none.mp htake] at hx
        cases hx
      | some r => cases r <;> exact ⟨_, rfl⟩
    obtain ⟨o, ho⟩ := ho
    exact h.sound.ready (reachable ρ m) h.ltReader ho
  have hkeeps : ∀ m, n ≤ m → x ∈ ((ρ.state m).nodes w).kv.cached k →
      ρ.thread m ≠ some (w, .app) → x ∈ ((ρ.state (m + 1)).nodes w).kv.cached k := by
    intro m hm hx ht
    cases hthread : ρ.thread m with
    | none => rwa [ρ.waits m hthread]
    | some t =>
      obtain ⟨nd, out, hmoved⟩ := h.sound.moves hthread
      by_cases htw : w = t.1
      · have hrole : t = (w, .rcv) := by
          cases hr : t.2 with
          | rcv => exact Prod.ext htw.symm hr
          | app => exact absurd hthread (by rwa [show t = (w, .app) from Prod.ext htw.symm hr])
        subst hrole
        obtain ⟨hs, hself⟩ := hmoved.rcvStep
        rw [hself]
        exact hs.cached ((reachable ρ m).inv.nodes w) h.away hx
      · rw [hmoved.other htw]
        exact hx
  obtain ⟨m, hm, ht, -⟩ := ρ.ensures hx hready hkeeps
  exact h.not_moves (hn.trans hm) ht

theorem Awaiting.not_handling (h : Awaiting cfg ρ k w n₀) {n : ℕ} (hn : n₀ ≤ n) {x : Message}
    {v : Value} (hb : x.body = .replyData k v) : ((ρ.state n).nodes w).rcv ≠ .handling x := by
  intro hr
  obtain ⟨m, hm, ht, hrcv⟩ := h.sound.busy_moves h.ltReader hr (by simp) (by simp)
  obtain ⟨nd, out, hmoved⟩ := h.sound.moves ht
  obtain ⟨hs, hself⟩ := hmoved.rcvStep
  have hx : x ∈ nd.kv.cached k := by
    have hkind := ((reachable ρ m).inv.nodes w).kind_of_handling hrcv
    rw [hb] at hkind
    cases hs with
    | addReply m' k' val hr' hb' hl =>
      rw [hrcv] at hr'
      cases hr'
      rw [hb] at hb'
      cases hb'
      show x ∈ (KVStore.addToCache_ _ k x).cached k
      rw [KVStore.cached_addToCache, if_pos rfl]
      exact List.mem_append_right _ (List.mem_singleton.mpr rfl)
    | serve m' k' val hr' hb' hk hv =>
      rw [hrcv] at hr'
      cases hr'
      rw [hb] at hb'
      rcases hb' with hb' | hb' <;> cases hb'
    | handleTeardown m' hr' hk =>
      rw [hrcv] at hr'
      cases hr'
      rw [hk] at hkind
      cases hkind
    | skip m' hr' hk =>
      rw [hrcv] at hr'
      cases hr'
      rcases hk with hk | hk <;> rw [hk] at hkind <;> cases hkind
    | _ => simp_all
  refine h.not_cached (n := m + 1) (by omega) (x := x) ?_
  rw [hself]
  exact hx

theorem Awaiting.not_queued (h : Awaiting cfg ρ k w n₀) {n : ℕ} (hn : n₀ ≤ n) {x : Message}
    {v : Value} (hb : x.body = .replyData k v) : x ∉ ((ρ.state n).nodes w).queue := by
  intro hx
  obtain ⟨m, hm, hr⟩ := handles h.sound h.ltReader hx
  exact h.not_handling (hn.trans hm) hb hr

theorem Awaiting.not_replying (h : Awaiting cfg ρ k w n₀) {n : ℕ} (hn : n₀ ≤ n) {x : Message}
    {v : Value} (hb : x.body = .replyData k v) (ht : x.target = w) :
    ((ρ.state n).nodes k.homeNode).rcv ≠ .replying x := by
  intro hr
  obtain ⟨m, hm, hthread, hrcv⟩ := h.sound.busy_moves h.ltHome hr (by simp) (by simp)
  obtain ⟨nd, out, hmoved⟩ := h.sound.moves hthread
  obtain ⟨hs, -⟩ := hmoved.rcvStep
  have hout : out = [x] := by
    cases hs with
    | reply x' hr' htarget =>
      rw [hrcv] at hr'
      cases hr'
      rfl
    | _ => simp_all
  refine h.not_queued (n := m + 1) (by omega) hb ?_
  rw [hmoved.other h.away.symm, Node.push_queue]
  refine List.mem_append_right _ (mem_toNode.mpr ⟨?_, ht⟩)
  rw [hout]
  exact List.mem_singleton.mpr rfl

theorem Awaiting.not_asked (h : Awaiting cfg ρ k w n₀) {q : Message} (hq : Asks w k q)
    (hlook : ∀ m, n₀ ≤ m → ((ρ.state m).nodes k.homeNode).rcv = .handling q →
      ((ρ.state m).nodes k.homeNode).kv.lookup k ≠ none) {n : ℕ} (hn : n₀ ≤ n) :
    ((ρ.state n).nodes k.homeNode).rcv ≠ .handling q := by
  intro hr
  obtain ⟨m, hm, hthread, hrcv⟩ := h.sound.busy_moves h.ltHome hr (by simp) (by simp)
  obtain ⟨nd, out, hmoved⟩ := h.sound.moves hthread
  obtain ⟨hs, hself⟩ := hmoved.rcvStep
  have hok := (reachable ρ m).inv.nodes k.homeNode
  have hkind := hok.kind_of_handling hrcv
  have hpc : ∃ v, nd.rcv = .replying (Message.replyDataMsg k v k.homeNode w) := by
    cases hs with
    | serve m' k' val hr' hb hk hv =>
      rw [hrcv] at hr'
      cases hr'
      have hkk : k' = k := by
        rcases hb with hb | hb <;> rcases hq.1 with hq | hq <;> rw [hb] at hq <;> cases hq <;> rfl
      refine ⟨val, ?_⟩
      rw [hkk, hok.storeId, hq.2]
    | miss m' k' hr' hb hk hv =>
      rw [hrcv] at hr'
      cases hr'
      have hkk : k' = k := by
        rcases hq.1 with hq | hq <;> rw [hb] at hq <;> cases hq
        rfl
      exact absurd (hkk ▸ hv) (hlook m (hn.trans hm) hrcv)
    | addReply m' k' val hr' hb hl =>
      rw [hrcv] at hr'
      cases hr'
      rcases hq.1 with hq | hq <;> rw [hb] at hq <;> cases hq
    | put m' k' val hr' hb hk =>
      rw [hrcv] at hr'
      cases hr'
      rcases hq.1 with hq | hq <;> rw [hb] at hq <;> cases hq
    | handleDone m' hr' hb hz hlt =>
      rw [hrcv] at hr'
      cases hr'
      rcases hq.1 with hq | hq <;> rw [hb] at hq <;> cases hq
    | handleTeardown m' hr' hk =>
      rw [hrcv] at hr'
      cases hr'
      rcases hq.1 with hq | hq <;> rw [hk, hq] at hkind <;> cases hkind
    | skip m' hr' hk =>
      rw [hrcv] at hr'
      cases hr'
      rcases hq.1 with hq | hq <;> rcases hk with hk | hk <;> rw [hk, hq] at hkind <;> cases hkind
    | _ => simp_all
  obtain ⟨v, hpc⟩ := hpc
  have hnext : ((ρ.state (m + 1)).nodes k.homeNode).rcv =
      .replying (Message.replyDataMsg k v k.homeNode w) := by
    rw [hself, Node.push_rcv, hpc]
  exact h.not_replying (by omega) rfl rfl hnext

/-- **No token is left for a node that waits for ever**, if its requests are answered and
none of them is parked. -/
theorem Awaiting.no_token (h : Awaiting cfg ρ k w n₀)
    (hask : ∀ n, n₀ ≤ n → ∀ q, Asks w k q → ((ρ.state n).nodes k.homeNode).rcv ≠ .handling q)
    (hpark : ∀ q, Waits ((ρ.state n₀).nodes k.homeNode) k q → q.sender ≠ w) {j : SizeT}
    {m : Message} (hm : m ∈ mail ((ρ.state n₀).nodes j) k) : isToken w k m = false := by
  by_contra ht
  rw [Bool.not_eq_false] at ht
  have hok := (reachable ρ n₀).inv.nodes j
  have hle := Nat.le_refl n₀
  -- what may be handled is a request at the home, or a reply at the writer
  have haccept : Accepts cfg j m →
      (j = k.homeNode ∧ Asks w k m) ∨ (j = w ∧ ∃ v, m.body = .replyData k v) := by
    intro ha
    rw [isToken] at ht
    split at ht
    · rename_i k' hb
      simp only [Bool.and_eq_true, decide_eq_true_eq] at ht
      obtain ⟨rfl, hs⟩ := ht
      exact Or.inl ⟨(ha.getData k' hb).1.symm, Or.inl hb, hs⟩
    · rename_i k' hb
      simp only [Bool.and_eq_true, decide_eq_true_eq] at ht
      obtain ⟨rfl, hs⟩ := ht
      exact Or.inl ⟨(ha.waitAndGet k' hb).1.symm, Or.inr hb, hs⟩
    · rename_i k' v hb
      simp only [Bool.and_eq_true, decide_eq_true_eq] at ht
      obtain ⟨rfl, hs⟩ := ht
      exact Or.inr ⟨ha.target.symm.trans hs, v, hb⟩
    · cases ht
  have hwaits : ∀ q, j = k.homeNode → Waits ((ρ.state n₀).nodes j) k q → q.sender ≠ w := by
    rintro q rfl hq
    exact hpark q hq
  rcases mem_mail.mp hm with hlet | hcache
  · rcases List.mem_append.mp hlet with hqueue | hhead
    · rcases haccept (hok.queue m hqueue) with ⟨rfl, hask'⟩ | ⟨rfl, v, hb⟩
      · obtain ⟨n, hn, hr⟩ := handles h.sound h.ltHome hqueue
        exact hask n hn m hask' hr
      · exact h.not_queued hle hb hqueue
    · have hrcv := hok.rcv
      cases hr : ((ρ.state n₀).nodes j).rcv with
      | handling m' =>
        rw [hr] at hhead hrcv
        obtain rfl := List.mem_singleton.mp hhead
        rcases haccept hrcv with ⟨rfl, hask'⟩ | ⟨rfl, v, hb⟩
        · exact hask n₀ hle m hask' hr
        · exact h.not_handling hle hb hr
      | replying m' =>
        rw [hr] at hhead hrcv
        obtain rfl := List.mem_singleton.mp hhead
        obtain ⟨-, -, k', v, he, hk'⟩ := hrcv
        rw [he, isToken_replyDataMsg] at ht
        simp only [Bool.and_eq_true, decide_eq_true_eq] at ht
        obtain ⟨rfl, htarget⟩ := ht
        subst hk'
        refine h.not_replying hle (v := v) ?_ htarget hr
        rw [he]
        rfl
      | parking k' m' =>
        rw [hr] at hhead hrcv
        obtain rfl := List.mem_singleton.mp hhead
        rcases haccept hrcv.1 with ⟨hjk, hask'⟩ | ⟨rfl, v, hb⟩
        · have hkk : k' = k := by
            rcases hask'.1 with hb | hb <;> rw [hrcv.2] at hb <;> cases hb
            rfl
          exact hwaits m hjk (Or.inr (hkk ▸ hr)) hask'.2
        · rw [hrcv.2] at hb
          cases hb
      | _ =>
        rw [hr] at hhead
        cases hhead
  · rcases haccept (hok.cached_accepts hcache) with ⟨hjk, hask'⟩ | ⟨rfl, v, hb⟩
    · exact hwaits m hjk (Or.inl hcache) hask'.2
    · exact h.not_cached hle hcache

/-- **Then there is no such run.** -/
theorem Awaiting.false (h : Awaiting cfg ρ k w n₀)
    (hask : ∀ n, n₀ ≤ n → ∀ q, Asks w k q → ((ρ.state n).nodes k.homeNode).rcv ≠ .handling q)
    (hpark : ∀ q, Waits ((ρ.state n₀).nodes k.homeNode) k q → q.sender ≠ w) : False := by
  have hbal := (reachable ρ n₀).balance (h.sound.lockHeld (reachable ρ n₀) w) h.away
  have hzero : ∀ j, tokens ((ρ.state n₀).nodes j) w k = 0 := fun j =>
    List.countP_eq_zero.mpr fun m hm => Bool.not_eq_true _ ▸ h.no_token hask hpark hm
  rw [hzero, hzero, awaits, h.awaiting n₀ (Nat.le_refl n₀)] at hbal
  simp at hbal

/-- From moment `n₀` on the writer waits for a key that it has put; it will turn out that
there is no such run. -/
structure Waiting (cfg : Config) (ρ : Fair cfg) (k : Key) (w : SizeT) (n₀ : ℕ) : Prop extends
    Awaiting cfg ρ k w n₀ where
  writer : ∀ n, ∀ p ∈ putLog cfg k (ρ.schedule n), p.1 = w
  put : ∀ m, n₀ ≤ m → values cfg k (ρ.schedule m) ≠ []

/-- What the home has stored once all puts have been handled. -/
theorem Waiting.session (h : Waiting cfg ρ k w n₀) (n : ℕ) :
    ∃ applied, Session cfg k w (ρ.schedule n) (ρ.state n) applied ∧
      Own cfg k w (ρ.schedule n) (ρ.state n) := by
  obtain ⟨applied, hsess, hown⟩ := session_run (ρ.run n) (h.writer n)
  exact ⟨applied, hsess, hown (h.sound.lockHeld (reachable ρ n) w) h.away⟩

/-- A request that the home is handling would be answered: the puts have been handled
before it. -/
theorem Waiting.not_asked (h : Waiting cfg ρ k w n₀) {n : ℕ} (hn : n₀ ≤ n) {q : Message}
    (hq : Asks w k q) : ((ρ.state n).nodes k.homeNode).rcv ≠ .handling q := by
  refine h.toAwaiting.not_asked hq (fun m hm hrcv => ?_) hn
  obtain ⟨applied, hsess, hown⟩ := h.session m
  have hput := h.put m hm
  rw [hsess.puts, hown.arriving hrcv hq, List.append_nil] at hput
  rw [hsess.stored]
  exact fun he => hput (List.getLast?_eq_none_iff.mp he)

/-- **There is no such run.** -/
theorem Waiting.false (h : Waiting cfg ρ k w n₀) : False := by
  refine h.toAwaiting.false (fun n hn q hq => h.not_asked hn hq) fun q hq hs => ?_
  obtain ⟨applied, hsess, hown⟩ := h.session n₀
  exact h.put n₀ (Nat.le_refl n₀) (hown.waiting q hq hs)

end Waiting

/-! ### The writer's reads return -/

section Own

variable {cfg : Config}

theorem Reachable.app_running {st : Cluster} (h : Reachable cfg st) {i : SizeT}
    (hi : ¬ i < cfg.numNodes) : (st.nodes i).app = .running := by
  refine h.induction (P := fun st => (st.nodes i).app = .running) rfl ?_
  intro st t st' happ hs
  rcases step_cases hs with ⟨nd, out, hm⟩ | ⟨f, -, rfl⟩
  · rw [hm.app (i := i) (by rintro rfl; exact hi hm.lt)]
    exact happ
  · exact happ

theorem Reachable.lt_of_app {st : Cluster} (h : Reachable cfg st) {i : SizeT} {pc : AppPc}
    (ha : (st.nodes i).app = pc) (hpc : pc ≠ .running) : i < cfg.numNodes := by
  by_contra hge
  exact hpc (ha.symm.trans (h.app_running hge))

theorem Reachable.home_lt {st : Cluster} (h : Reachable cfg st) {i : SizeT} {k : Key} {b : Bool}
    (ha : (st.nodes i).app = .awaiting k b) : k.homeNode < cfg.numNodes := by
  revert ha
  refine h.induction (P := fun st => (st.nodes i).app = .awaiting k b → k.homeNode < cfg.numNodes)
    (fun ha => by cases ha) ?_
  intro st t st' ih hs ha
  rcases step_cases hs with ⟨nd, out, hm⟩ | ⟨f, -, rfl⟩
  · by_cases ht : t = (i, .app)
    · subst ht
      have hnode : AppStep cfg (st.nodes i) nd out := hm.node
      rw [hm.self, Node.push_app] at ha
      cases hnode with
      | ask k' b' ha' hk hlt =>
        cases ha
        exact hlt
      | _ => simp_all [Node.finish]
    · exact ih ((hm.app ht).symm.trans ha)
  · exact ih ha

variable {ρ : Fair cfg} {k : Key} {w : SizeT}

theorem Sound.app_stays (hc : Sound cfg) {n : ℕ} {i : SizeT} (hn : ρ.thread n ≠ some (i, .app)) :
    ((ρ.state (n + 1)).nodes i).app = ((ρ.state n).nodes i).app := by
  cases ht : ρ.thread n with
  | none => rw [ρ.waits n ht]
  | some t =>
    obtain ⟨nd, out, hm⟩ := hc.moves ht
    exact hm.app (by rintro rfl; exact hn ht)

theorem values_ne_nil {n m : ℕ} (hv : values cfg k (ρ.schedule n) ≠ []) (hle : n ≤ m) :
    values cfg k (ρ.schedule m) ≠ [] := by
  induction m, hle using Nat.le_induction with
  | base => exact hv
  | succ m _ ih =>
    rw [ρ.schedule_succ, values, putLog, Schedule.trace_append _ (ρ.run m), List.map_append]
    exact List.append_ne_nil_of_left_ne_nil ih _

theorem Sound.returns_of_awaiting (hc : Sound cfg) {n : ℕ} {i : SizeT}
    (ht : ρ.thread n = some (i, .app)) (ha : ((ρ.state n).nodes i).app = .awaiting k true) :
    ∃ r, Returns (ρ.state n) (ρ.state (n + 1)) i k true r := by
  obtain ⟨nd, out, hm⟩ := hc.moves ht
  have hs : AppStep cfg ((ρ.state n).nodes i) nd out := hm.node
  have hself := hm.self
  cases hs with
  | take k' b val kv ha' hl htaken =>
    exact ⟨some val, Or.inr ha, by rw [hself]; rfl, by rw [hself]; rfl⟩
  | _ => simp_all

theorem Sound.returns_or_awaiting (hc : Sound cfg) {n : ℕ}
    (ha : ((ρ.state n).nodes w).app = .awaiting k true) :
    (∃ m, n ≤ m ∧ ∃ r, Returns (ρ.state m) (ρ.state (m + 1)) w k true r) ∨
      Awaiting cfg ρ k w n := by
  by_contra hno
  obtain ⟨hreturn, hwait⟩ := not_or.mp hno
  refine hwait ?_
  have hawait : ∀ m, n ≤ m → ((ρ.state m).nodes w).app = .awaiting k true := by
    intro m hm
    induction m, hm using Nat.le_induction with
    | base => exact ha
    | succ m hm ih =>
      have ht : ρ.thread m ≠ some (w, .app) :=
        fun ht => hreturn ⟨m, hm, hc.returns_of_awaiting ht ih⟩
      exact (hc.app_stays ht).trans ih
  have happ := ((reachable ρ n).inv.nodes w).app
  rw [ha] at happ
  exact {
    sound := hc
    away := happ.1
    ltHome := (reachable ρ n).home_lt ha
    ltReader := (reachable ρ n).lt_of_app ha fun hc => by cases hc
    awaiting := hawait }

theorem Sound.await_returns (hc : Sound cfg)
    (hw : ∀ n, ∀ p ∈ putLog cfg k (ρ.schedule n), p.1 = w) {n : ℕ}
    (hv : values cfg k (ρ.schedule n) ≠ [])
    (ha : ((ρ.state n).nodes w).app = .awaiting k true) :
    ∃ m, n ≤ m ∧ ∃ r, Returns (ρ.state m) (ρ.state (m + 1)) w k true r := by
  refine (hc.returns_or_awaiting ha).resolve_right fun hawait => ?_
  exact Waiting.false {
    hawait with
    writer := hw
    put := fun m hm => values_ne_nil hv hm }

theorem Sound.call_moves (hc : Sound cfg)
    (hw : ∀ n, ∀ p ∈ putLog cfg k (ρ.schedule n), p.1 = w) {n : ℕ}
    (hv : values cfg k (ρ.schedule n) ≠ [])
    (ha : ((ρ.state n).nodes w).app = .calling (.getValue k true)) :
    ∃ m, n ≤ m ∧ ρ.thread m = some (w, .app) ∧
      ((ρ.state m).nodes w).app = .calling (.getValue k true) := by
  have hlt := (reachable ρ n).lt_of_app ha fun hc => by cases hc
  refine ρ.ensures ha ?_ fun m _ ha ht => (hc.app_stays ht).trans ha
  intro m hm ha
  obtain ⟨applied, hsess, -⟩ := session_run (ρ.run m) (hw m)
  have ho : ∃ o, nodeStep cfg ((ρ.state m).nodes w) .app = some o := by
    show ∃ o, appStep cfg _ = some o
    rw [appStep, ha]
    show ∃ o, getValue cfg _ k true = some o
    rw [getValue]
    split
    · rename_i hk
      rw [((reachable ρ m).inv.nodes w).storeId] at hk
      have hput := values_ne_nil hv hm
      rw [hsess.puts, hsess.atHome hk, List.append_nil] at hput
      cases hlook : ((ρ.state m).nodes w).kv.lookup k with
      | some val => exact ⟨_, rfl⟩
      | none =>
        have hstored := hsess.stored
        rw [hk, hlook] at hstored
        exact absurd (List.getLast?_eq_none_iff.mp hstored.symm) hput
    · exact ⟨_, rfl⟩
  obtain ⟨o, ho⟩ := ho
  exact hc.ready (reachable ρ m) hlt ho

/-- **The writer's reads return.** In a fair run in which no assertion can fail and only
node `w` puts under `k`, a `getValue(k, true)` that its application makes after a put
comes back. -/
theorem own_read_returns (hc : Sound cfg) (ρ : Fair cfg)
    (hw : ∀ n, ∀ p ∈ putLog cfg k (ρ.schedule n), p.1 = w) {n : ℕ}
    (hv : values cfg k (ρ.schedule n) ≠ []) (hin : InGet ((ρ.state n).nodes w) k true) :
    ∃ m, n ≤ m ∧ ∃ r, Returns (ρ.state m) (ρ.state (m + 1)) w k true r := by
  rcases hin with ha | ha
  · obtain ⟨m, hm, ht, ha⟩ := hc.call_moves hw hv ha
    obtain ⟨nd, out, hmoved⟩ := hc.moves ht
    have hs : AppStep cfg ((ρ.state m).nodes w) nd out := hmoved.node
    have hself := hmoved.self
    cases hs with
    | getLocal k' b r ha' hk hlook hr =>
      exact ⟨m, hm, r, Or.inl ha, by rw [hself]; rfl, by rw [hself]; rfl⟩
    | ask k' b ha' hk hlt =>
      rw [ha] at ha'
      cases ha'
      have hawait : ((ρ.state (m + 1)).nodes w).app = .awaiting k true := by
        rw [hself]
        rfl
      obtain ⟨m', hm', r, hret⟩ :=
        hc.await_returns hw (values_ne_nil hv (Nat.le_succ_of_le hm)) hawait
      exact ⟨m', by omega, r, hret⟩
    | _ => simp_all
  · exact hc.await_returns hw hv ha

end Own

end Pseudo

end Eau2
