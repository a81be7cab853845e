import Eau2.Network.Pseudo.Reads

/-!
# The order of messages

What was sent and what was handled, along a run.  The queues are FIFO, so what was
sent to a node is what it has handled and, behind that, what still lies there
(`Down.fifo`).  A node sends its `DoneMsg` last and waits for nothing afterwards;
so once the server knows all nodes done, no request and no reply is left anywhere,
and the only messages still to be sent are those of the broadcast (`Moved.quiet`).

* `Down.snoc`, `down_run`: the invariant of the two logs and its run.
-/

namespace Eau2

namespace Pseudo

open KVStore (Drained Taken)

def HasLeft (nd : Node) : Bool :=
  match nd.app with
  | .joining => true
  | .finished => true
  | _ => false

def current (nd : Node) : List Message :=
  match nd.rcv with
  | .handling m => [m]
  | _ => []

/-- What was sent to a node and is not handled yet. -/
def inbox (nd : Node) : List Message := current nd ++ nd.queue

/-- The message that node `j` handles in the next step of thread `t`. -/
def handled (cfg : Config) (j : SizeT) (st : Cluster) (t : ThreadId) : List Message :=
  if t = (j, .rcv) then
    match rcvStep cfg (st.nodes j) with
    | some (.ok _) => current (st.nodes j)
    | _ => []
  else []

def sentLog (cfg : Config) (ts : List ThreadId) : List Message :=
  Schedule.trace (step cfg) (sent cfg) Cluster.init ts

def handledLog (cfg : Config) (j : SizeT) (ts : List ThreadId) : List Message :=
  Schedule.trace (step cfg) (handled cfg j) Cluster.init ts

def isDone (i : SizeT) (m : Message) : Bool := m.body = .done && m.sender = i

def isTeardown (m : Message) : Bool := m.body = .teardown

def isPut (m : Message) : Bool :=
  match m.body with
  | .put _ _ => true
  | _ => false

/-- How many `TeardownMsg`s the server owes node `j` by now. -/
def due (cfg : Config) (server : Node) (j : SizeT) : Nat :=
  if allDone cfg server.isNodeDone then
    match server.rcv with
    | .tearingDown i => if j < i then 1 else 0
    | _ => if j < cfg.numNodes then 1 else 0
  else 0

/-- **The order of messages.** -/
structure Down (cfg : Config) (ts : List ThreadId) (st : Cluster) : Prop where
  fifo : ∀ j, toNode (sentLog cfg ts) j = handledLog cfg j ts ++ inbox (st.nodes j)
  exited : ∀ j, (st.nodes j).rcv = .exited ↔ ∃ m ∈ handledLog cfg j ts, m.body = .teardown
  isNodeDone : ∀ i, (st.nodes 0).isNodeDone i = true ↔
    ∃ m ∈ handledLog cfg 0 ts, m.body = .done ∧ m.sender = i
  sentDone : ∀ i, (sentLog cfg ts).countP (isDone i) = if HasLeft (st.nodes i) then 1 else 0
  doneTo : ∀ m ∈ sentLog cfg ts, m.body = .done → m.target = 0
  tearing : ∀ j i, (st.nodes j).rcv = .tearingDown i →
    j = 0 ∧ allDone cfg (st.nodes 0).isNodeDone = true ∧ i ≤ cfg.numNodes
  count : ∀ j, (toNode (sentLog cfg ts) j).countP isTeardown = due cfg (st.nodes 0) j
  closed : (sentLog cfg ts).Pairwise fun m m' => m.body = .teardown → m'.target ≠ m.target

theorem allDone_iff {cfg : Config} {d : SizeT → Bool} :
    allDone cfg d = true ↔ ∀ i, i < cfg.numNodes → d i = true := by
  rw [allDone, List.all_eq_true]
  constructor
  · intro h i hi
    have := h i.toNat (List.mem_range.mpr (UInt64.lt_iff_toNat_lt.mp hi))
    rwa [UInt64.ofNat_toNat] at this
  · intro h n hn
    have hlt := List.mem_range.mp hn
    have hsize := cfg.numNodes.toNat_lt
    refine h _ (UInt64.lt_iff_toNat_lt.mpr ?_)
    rwa [UInt64.toNat_ofNat_of_lt' (Nat.lt_trans hlt hsize)]

/-! ### One node -/

/-- **A receiver handles what it holds, and what lies behind stays in order.** -/
theorem RcvStep.inbox {cfg : Config} {nd nd' : Node} {out : List Message}
    (hs : RcvStep cfg nd nd' out) : inbox nd = current nd ++ inbox nd' := by
  cases hs with
  | receive m queue hr hq => simp [Pseudo.inbox, current, hr, hq]
  | handleDone m hr hb hz hm =>
    have hnew : ∀ b : Bool, (match (if b then RcvPc.tearingDown 0 else .receiving) with
        | .handling m => [m]
        | _ => []) = [] := by
      intro b
      cases b <;> rfl
    simp only [Pseudo.inbox, current, hr, hnew, List.nil_append]
  | _ => simp [Pseudo.inbox, current, *]

theorem AppStep.inbox {cfg : Config} {nd nd' : Node} {out : List Message}
    (hs : AppStep cfg nd nd' out) : Pseudo.inbox nd' = Pseudo.inbox nd ∧ nd'.rcv = nd.rcv ∧
      nd'.isNodeDone = nd.isNodeDone := by
  cases hs <;> exact ⟨rfl, rfl, rfl⟩

theorem RcvStep.ne_exited {cfg : Config} {nd nd' : Node} {out : List Message}
    (hs : RcvStep cfg nd nd' out) : nd.rcv ≠ .exited := by
  cases hs <;> simp_all

theorem mem_current {nd : Node} {m : Message} : m ∈ current nd ↔ nd.rcv = .handling m := by
  rw [current]
  split
  · rename_i m' hr
    rw [List.mem_singleton, hr]
    constructor
    · intro h
      rw [h]
    · intro h
      cases h
      rfl
  · rename_i hr
    constructor
    · intro h
      cases h
    · exact fun h => absurd h (hr m)

theorem NodeOk.kind_of_handling {cfg : Config} {id : SizeT} {nd : Node} (h : NodeOk cfg id nd)
    {m : Message} (hr : nd.rcv = .handling m) : m.kind = m.body.kind := by
  have hrcv := h.rcv
  rw [hr] at hrcv
  exact hrcv.kind

theorem RcvStep.of_put {cfg : Config} {id : SizeT} {nd nd' : Node} {out : List Message}
    (hs : RcvStep cfg nd nd' out) (h : NodeOk cfg id nd) {m : Message}
    (hr : nd.rcv = .handling m) {k : Key} {v : Value} (hb : m.body = .put k v) :
    nd'.kv = nd.kv.insert k v := by
  have hkind := h.kind_of_handling hr
  rw [hb] at hkind
  cases hs with
  | put m' k' data hr' hb' hk =>
    rw [hr] at hr'
    cases hr'
    rw [hb] at hb'
    cases hb'
    rfl
  | serve m' k' val hr' hq hk hv =>
    rw [hr] at hr'
    cases hr'
    rw [hb] at hq
    rcases hq with hq | hq <;> cases hq
  | handleTeardown m' hr' hk =>
    rw [hr] at hr'
    cases hr'
    rw [hk] at hkind
    cases hkind
  | skip m' hr' hk =>
    rw [hr] at hr'
    cases hr'
    rcases hk with hk | hk <;> rw [hk] at hkind <;> cases hkind
  | _ => simp_all

theorem RcvStep.exited {cfg : Config} {id : SizeT} {nd nd' : Node} {out : List Message}
    (h : NodeOk cfg id nd) (hs : RcvStep cfg nd nd' out) :
    nd'.rcv = .exited ↔ ∃ m ∈ current nd, m.body = .teardown := by
  constructor
  · intro he
    cases hs with
    | handleTeardown m hr hk =>
      have hkind := h.kind_of_handling hr
      rw [hk] at hkind
      refine ⟨m, mem_current.mpr hr, ?_⟩
      cases hb : m.body <;> rw [hb] at hkind <;> first | rfl | cases hkind
    | handleDone m hr hb hz hm =>
      replace he : (if _ then RcvPc.tearingDown 0 else .receiving) = .exited := he
      split at he <;> cases he
    | _ => cases he
  · rintro ⟨m, hm, hb⟩
    have hm := mem_current.mp hm
    have hkind := h.kind_of_handling hm
    rw [hb] at hkind
    cases hs with
    | handleTeardown m' hr hk => rfl
    | skip m' hr hk =>
      rw [hm] at hr
      cases hr
      rcases hk with hk | hk <;> rw [hk] at hkind <;> cases hkind
    | _ => simp_all

theorem RcvStep.isNodeDone {cfg : Config} {nd nd' : Node} {out : List Message}
    (h : NodeOk cfg 0 nd) (hs : RcvStep cfg nd nd' out) (i : SizeT) :
    nd'.isNodeDone i = true ↔
      nd.isNodeDone i = true ∨ ∃ m ∈ current nd, m.body = .done ∧ m.sender = i := by
  have hother : (∀ m, nd.rcv = .handling m → m.body ≠ .done) →
      (nd.isNodeDone i = true ↔
        nd.isNodeDone i = true ∨ ∃ m ∈ current nd, m.body = .done ∧ m.sender = i) := by
    intro hn
    refine ⟨Or.inl, ?_⟩
    rintro (hd | ⟨m, hm, hb, -⟩)
    · exact hd
    · exact absurd hb (hn m (mem_current.mp hm))
  cases hs with
  | handleDone m hr hb hz hm =>
    show (if i = m.sender then true else nd.isNodeDone i) = true ↔ _
    constructor
    · intro hd
      by_cases hi : i = m.sender
      · exact Or.inr ⟨m, mem_current.mpr hr, hb, hi.symm⟩
      · rw [if_neg hi] at hd
        exact Or.inl hd
    · rintro (hd | ⟨m', hm', -, hi⟩)
      · split
        · rfl
        · exact hd
      · have := mem_current.mp hm'
        rw [hr] at this
        cases this
        rw [if_pos hi.symm]
  | handleTeardown m hr hk =>
    refine hother fun m' hr' hb => ?_
    have hkind := h.kind_of_handling hr'
    rw [hr] at hr'
    cases hr'
    rw [hk, hb] at hkind
    cases hkind
  | skip m hr hk =>
    refine hother fun m' hr' hb => ?_
    have hkind := h.kind_of_handling hr'
    rw [hr] at hr'
    cases hr'
    rw [hb] at hkind
    rcases hk with hk | hk <;> rw [hk] at hkind <;> cases hkind
  | serve m k val hr hq hk hv =>
    refine hother fun m' hr' hb => ?_
    rw [hr] at hr'
    cases hr'
    rcases hq with hq | hq <;> rw [hq] at hb <;> cases hb
  | _ => exact hother fun m' hr' hb => by simp_all

theorem body_of_drained {s s' : KVStore} {k : Key} {replies : List Message}
    (hd : Drained s s' k replies) {m : Message} (hm : m ∈ replies) :
    ∃ v, m.body = .replyData k v := by
  obtain ⟨val, -, he⟩ := hd.replies
  rw [he] at hm
  obtain ⟨q, -, rfl⟩ := List.mem_map.mp hm
  exact ⟨val, rfl⟩

theorem AppStep.sentDone {cfg : Config} {id : SizeT} {nd nd' : Node} {out : List Message}
    (h : NodeOk cfg id nd) (hs : AppStep cfg nd nd' out) (i : SizeT) :
    out.countP (isDone i) + (if id = i then (if HasLeft nd then 1 else 0) else 0) =
      if id = i then (if HasLeft nd' then 1 else 0) else 0 := by
  have hsid := h.storeId
  cases hs with
  | done ha ht =>
    by_cases hi : id = i <;>
      simp [HasLeft, ha, isDone, Message.doneMsg, Message.ofBody, hsid, hi]
  | drain k kv replies ha hl hd ht =>
    have hz : out.countP (isDone i) = 0 := List.countP_eq_zero.mpr fun m hm => by
      obtain ⟨v, hb⟩ := body_of_drained hd hm
      simp [isDone, hb]
    rw [hz]
    simp [HasLeft, ha, Node.finish]
  | putRemote k data ha hk ht =>
    simp [HasLeft, ha, Node.finish, isDone, Message.putMsg, Message.ofBody]
  | ask k b ha hk ht =>
    cases b <;> simp [HasLeft, ha, isDone, request, Message.waitAndGetMsg, Message.getDataMsg,
      Message.ofBody]
  | _ => simp_all [HasLeft, Node.finish]

theorem RcvStep.sentDone {cfg : Config} {id : SizeT} {nd nd' : Node} {out : List Message}
    (h : NodeOk cfg id nd) (hs : RcvStep cfg nd nd' out) (i : SizeT) :
    out.countP (isDone i) = 0 := by
  have hrcv := h.rcv
  refine List.countP_eq_zero.mpr fun m hm => ?_
  cases hs with
  | drain k kv replies hr hl hd ht =>
    obtain ⟨v, hb⟩ := body_of_drained hd hm
    simp [isDone, hb]
  | reply m' hr ht =>
    rw [hr] at hrcv
    obtain ⟨-, -, k, v, he, -⟩ := hrcv
    rw [List.mem_singleton.mp hm, he]
    simp [isDone, Message.replyDataMsg, Message.ofBody]
  | broadcast j hr hj =>
    rw [List.mem_singleton.mp hm]
    simp [isDone, Message.teardownMsg, Message.ofBody]
  | _ => cases hm

/-- A `TeardownMsg` is only sent by a receiver in the broadcast. -/
theorem NodeStep.sends_teardown {cfg : Config} {id : SizeT} {nd nd' : Node} {r : Role}
    {out : List Message} (h : NodeOk cfg id nd) (hs : NodeStep cfg nd r nd' out) {m : Message}
    (hm : m ∈ out) (hb : m.body = .teardown) :
    r = .rcv ∧ nd.rcv = .tearingDown m.target ∧ out = [m] := by
  have hrcv := h.rcv
  cases r with
  | app =>
    exfalso
    replace hs : AppStep cfg nd nd' out := hs
    cases hs with
    | drain k kv replies ha hl hd ht =>
      obtain ⟨v, hb'⟩ := body_of_drained hd hm
      rw [hb] at hb'
      cases hb'
    | putRemote k data ha hk ht =>
      rw [List.mem_singleton.mp hm] at hb
      cases hb
    | ask k b ha hk ht =>
      rw [List.mem_singleton.mp hm] at hb
      cases b <;> cases hb
    | done ha ht =>
      rw [List.mem_singleton.mp hm] at hb
      cases hb
    | _ => cases hm
  | rcv =>
    replace hs : RcvStep cfg nd nd' out := hs
    cases hs with
    | drain k kv replies hr hl hd ht =>
      obtain ⟨v, hb'⟩ := body_of_drained hd hm
      rw [hb] at hb'
      cases hb'
    | reply m' hr ht =>
      rw [hr] at hrcv
      obtain ⟨-, -, k, v, he, -⟩ := hrcv
      rw [List.mem_singleton.mp hm, he] at hb
      cases hb
    | broadcast i hr hi =>
      rw [List.mem_singleton.mp hm]
      exact ⟨rfl, hr, rfl⟩
    | _ => cases hm

theorem NodeStep.sentDone {cfg : Config} {id : SizeT} {nd nd' : Node} {r : Role}
    {out : List Message} (h : NodeOk cfg id nd) (hs : NodeStep cfg nd r nd' out) (i : SizeT) :
    out.countP (isDone i) + (if id = i then (if HasLeft nd then 1 else 0) else 0) =
      if id = i then (if HasLeft nd' then 1 else 0) else 0 := by
  cases r with
  | app => exact AppStep.sentDone h hs i
  | rcv =>
    have happ : HasLeft nd' = HasLeft nd := by rw [HasLeft, RcvStep.app hs, HasLeft]
    rw [RcvStep.sentDone h hs i, happ, Nat.zero_add]

/-! ### All nodes -/

theorem Moved.handled {cfg : Config} {st st' : Cluster} {t : ThreadId} {nd : Node}
    {out : List Message} (hm : Moved cfg st t nd out st') (j : SizeT) :
    handled cfg j st t = if t = (j, .rcv) then current (st.nodes j) else [] := by
  rw [Pseudo.handled]
  split
  · rename_i ht
    have hok := hm.ok
    rw [ht] at hok
    replace hok : rcvStep cfg (st.nodes j) = some (.ok (nd, out)) := hok
    rw [hok]
  · rfl

theorem Moved.rcv {cfg : Config} {st st' : Cluster} {t : ThreadId} {nd : Node}
    {out : List Message} (hm : Moved cfg st t nd out st') {j : SizeT} (hj : t ≠ (j, .rcv)) :
    (st'.nodes j).rcv = (st.nodes j).rcv ∧ (st'.nodes j).isNodeDone = (st.nodes j).isNodeDone ∧
      inbox (st'.nodes j) = inbox (st.nodes j) ++ toNode out j := by
  have hpush : ∀ (nd : Node) ms, inbox (nd.push ms) = inbox nd ++ ms := by
    intro nd ms
    rw [inbox, inbox, List.append_assoc]
    rfl
  by_cases hjt : j = t.1
  · have hr : t.2 = .app := by
      cases hr : t.2 with
      | app => rfl
      | rcv => exact absurd (Prod.ext hjt.symm hr) hj
    have hs := hm.node
    rw [hr] at hs
    obtain ⟨hin, hrcv, hd⟩ := AppStep.inbox hs
    rw [hjt, hm.self, hpush, hin, Node.push_rcv, Node.push_isNodeDone]
    exact ⟨hrcv, hd, rfl⟩
  · rw [hm.other hjt, hpush, Node.push_rcv, Node.push_isNodeDone]
    exact ⟨rfl, rfl, rfl⟩

theorem not_hasLeft_of_awaiting {nd : Node} {k : Key} {b : Bool} (h : nd.app = .awaiting k b) :
    HasLeft nd = false := by
  rw [HasLeft, h]

/-- **When every node has left, only the broadcast still sends.** -/
theorem Moved.quiet {cfg : Config} {st st' : Cluster} {t : ThreadId} {nd : Node}
    {out : List Message} (hm : Moved cfg st t nd out st') (hi : Inv cfg st)
    (hl : NoLockHeld st) (hleft : ∀ i, i < cfg.numNodes → HasLeft (st.nodes i) = true) :
    out = [] ∨ ∃ i, t.2 = .rcv ∧ (st.nodes t.1).rcv = .tearingDown i ∧
      out = [Message.teardownMsg t.1 i] := by
  have hok := hi.nodes t.1
  have hs := hm.node
  have hself := hleft t.1 hm.lt
  -- a token belongs to an application that waits
  have hnone : ∀ i k m, i < cfg.numNodes → k.homeNode ≠ i → m ∈ mail (st.nodes t.1) k →
      ¬ isToken i k m = true := by
    intro i k m hlt hk hmem htok
    obtain ⟨b, hb⟩ := hi.awaiting_of_token hl hk hmem htok
    have := hleft i hlt
    rw [not_hasLeft_of_awaiting hb] at this
    cases this
  cases hr : t.2 with
  | app =>
    left
    rw [hr] at hs
    replace hs : AppStep cfg (st.nodes t.1) nd out := hs
    cases hs with
    | drain k kv replies ha hl hd ht => simp [HasLeft, ha] at hself
    | putRemote k data ha hk ht => simp [HasLeft, ha] at hself
    | ask k b ha hk ht => simp [HasLeft, ha] at hself
    | done ha ht => simp [HasLeft, ha] at hself
    | _ => rfl
  | rcv =>
    rw [hr] at hs
    replace hs : RcvStep cfg (st.nodes t.1) nd out := hs
    have hrcv := hok.rcv
    cases hs with
    | drain k kv replies hpc hlk hd ht =>
      left
      rw [hpc] at hrcv
      obtain ⟨val, -, he⟩ := hd.replies
      rw [he, List.map_eq_nil_iff, List.eq_nil_iff_forall_not_mem]
      intro q hq
      have hb := hok.cached_waiter hrcv.1 hq
      obtain ⟨hk, hne, hlt⟩ := (hok.cached_accepts hq).waitAndGet k hb
      exact hnone q.sender k q hlt (by rw [hk]; exact Ne.symm hne)
        (mem_mail.mpr (Or.inr hq)) (isToken_of_ask (Or.inr hb) rfl)
    | reply q hpc ht =>
      rw [hpc] at hrcv
      obtain ⟨hlt, hne, k, v, he, hk⟩ := hrcv
      have hmem : q ∈ mail (st.nodes t.1) k := by
        refine mem_mail.mpr (Or.inl (List.mem_append_right _ ?_))
        rw [hpc]
        exact List.mem_singleton.mpr rfl
      exact absurd (isToken_of_reply (v := v) (by rw [he]; rfl) rfl)
        (hnone q.target k q hlt (by rw [hk]; exact Ne.symm hne) hmem)
    | broadcast i hpc hlt =>
      right
      rw [hok.storeId]
      exact ⟨i, rfl, hpc, rfl⟩
    | _ => exact Or.inl rfl

/-! ### The order of messages -/

theorem Down.hasLeft {cfg : Config} {ts : List ThreadId} {st : Cluster} (h : Down cfg ts st)
    {i : SizeT} (hd : (st.nodes 0).isNodeDone i = true) : HasLeft (st.nodes i) = true := by
  obtain ⟨m, hm, hb, hs⟩ := (h.isNodeDone i).mp hd
  have hsent : m ∈ sentLog cfg ts := by
    have : m ∈ toNode (sentLog cfg ts) 0 := by
      rw [h.fifo]
      exact List.mem_append_left _ hm
    exact (mem_toNode.mp this).1
  have hpos : 0 < (sentLog cfg ts).countP (isDone i) :=
    List.countP_pos_iff.mpr ⟨m, hsent, by simp [isDone, hb, hs]⟩
  have hcount := h.sentDone i
  cases hleft : HasLeft (st.nodes i) with
  | true => rfl
  | false =>
    rw [hleft] at hcount
    simp only [Bool.false_eq_true, if_false] at hcount
    omega

theorem Down.allLeft {cfg : Config} {ts : List ThreadId} {st : Cluster} (h : Down cfg ts st)
    (hd : allDone cfg (st.nodes 0).isNodeDone = true) {i : SizeT} (hi : i < cfg.numNodes) :
    HasLeft (st.nodes i) = true := h.hasLeft (allDone_iff.mp hd i hi)

/-- A `DoneMsg` is handled once: the server had not ticked its sender off. -/
theorem Down.notYetDone {cfg : Config} {ts : List ThreadId} {st : Cluster} (h : Down cfg ts st)
    {m : Message} (hr : (st.nodes 0).rcv = .handling m) (hb : m.body = .done) :
    (st.nodes 0).isNodeDone m.sender = false := by
  by_contra hd
  obtain ⟨m', hm', hb', hs'⟩ := (h.isNodeDone m.sender).mp (Bool.not_eq_false _ ▸ hd)
  have h1 : 0 < (handledLog cfg 0 ts).countP (isDone m.sender) :=
    List.countP_pos_iff.mpr ⟨m', hm', by simp [isDone, hb', hs']⟩
  have h2 : 0 < (inbox (st.nodes 0)).countP (isDone m.sender) := by
    refine List.countP_pos_iff.mpr ⟨m, ?_, by simp [isDone, hb]⟩
    exact List.mem_append_left _ (mem_current.mpr hr)
  have h3 : (toNode (sentLog cfg ts) 0).countP (isDone m.sender) ≤
      (sentLog cfg ts).countP (isDone m.sender) := List.Sublist.countP_le List.filter_sublist
  have h4 := h.sentDone m.sender
  rw [h.fifo, List.countP_append] at h3
  split at h4 <;> omega

theorem Moved.sentLog {cfg : Config} {ts : List ThreadId} {st st' : Cluster} {t : ThreadId}
    {nd : Node} {out : List Message} (hm : Moved cfg st t nd out st')
    (hr : run cfg ts = some st) : sentLog cfg (ts ++ [t]) = sentLog cfg ts ++ out := by
  rw [Pseudo.sentLog, Schedule.trace_snoc _ hr, hm.sent]
  rfl

theorem Moved.handledLog {cfg : Config} {ts : List ThreadId} {st st' : Cluster} {t : ThreadId}
    {nd : Node} {out : List Message} (hm : Moved cfg st t nd out st')
    (hr : run cfg ts = some st) (j : SizeT) : handledLog cfg j (ts ++ [t]) =
      handledLog cfg j ts ++ if t = (j, .rcv) then current (st.nodes j) else [] := by
  rw [Pseudo.handledLog, Schedule.trace_snoc _ hr, hm.handled]
  rfl

theorem toNode_append (l l' : List Message) (j : SizeT) :
    toNode (l ++ l') j = toNode l j ++ toNode l' j := List.filter_append ..

theorem Moved.rcvStep {cfg : Config} {st st' : Cluster} {j : SizeT} {nd : Node}
    {out : List Message} (hm : Moved cfg st (j, .rcv) nd out st') :
    RcvStep cfg (st.nodes j) nd out ∧ st'.nodes j = nd.push (toNode out j) :=
  ⟨hm.node, hm.self⟩

theorem Down.fifo_step {cfg : Config} {ts : List ThreadId} {st st' : Cluster} {t : ThreadId}
    {nd : Node} {out : List Message} (h : Down cfg ts st) (hm : Moved cfg st t nd out st')
    (hr : run cfg ts = some st) (j : SizeT) : toNode (sentLog cfg (ts ++ [t])) j =
      handledLog cfg j (ts ++ [t]) ++ inbox (st'.nodes j) := by
  rw [hm.sentLog hr, hm.handledLog hr, toNode_append, h.fifo, List.append_assoc,
    List.append_assoc]
  congr 1
  by_cases hj : t = (j, .rcv)
  · subst hj
    obtain ⟨hs, hself⟩ := hm.rcvStep
    rw [if_pos rfl, hs.inbox, hself, List.append_assoc]
    simp [inbox, current]
  · rw [if_neg hj, (hm.rcv hj).2.2, List.nil_append]

theorem Down.exited_step {cfg : Config} {ts : List ThreadId} {st st' : Cluster} {t : ThreadId}
    {nd : Node} {out : List Message} (h : Down cfg ts st) (hi : Inv cfg st)
    (hm : Moved cfg st t nd out st') (hr : run cfg ts = some st) (j : SizeT) :
    (st'.nodes j).rcv = .exited ↔ ∃ m ∈ handledLog cfg j (ts ++ [t]), m.body = .teardown := by
  rw [hm.handledLog hr]
  by_cases hj : t = (j, .rcv)
  · subst hj
    obtain ⟨hs, hself⟩ := hm.rcvStep
    have hold : ¬ ∃ m ∈ handledLog cfg j ts, m.body = .teardown := by
      rw [← h.exited]
      exact hs.ne_exited
    rw [if_pos rfl, hself, Node.push_rcv, hs.exited (hi.nodes j)]
    simp only [List.mem_append, or_and_right, exists_or]
    exact (or_iff_right hold).symm
  · rw [if_neg hj, List.append_nil, (hm.rcv hj).1]
    exact h.exited j

theorem Down.isNodeDone_step {cfg : Config} {ts : List ThreadId} {st st' : Cluster}
    {t : ThreadId} {nd : Node} {out : List Message} (h : Down cfg ts st) (hi : Inv cfg st)
    (hm : Moved cfg st t nd out st') (hr : run cfg ts = some st) (i : SizeT) :
    (st'.nodes 0).isNodeDone i = true ↔
      ∃ m ∈ handledLog cfg 0 (ts ++ [t]), m.body = .done ∧ m.sender = i := by
  rw [hm.handledLog hr]
  by_cases hj : t = (0, .rcv)
  · subst hj
    obtain ⟨hs, hself⟩ := hm.rcvStep
    rw [if_pos rfl, hself, Node.push_isNodeDone, hs.isNodeDone (hi.nodes 0), h.isNodeDone]
    simp only [List.mem_append, or_and_right, exists_or]
  · rw [if_neg hj, List.append_nil, (hm.rcv hj).2.1]
    exact h.isNodeDone i

theorem Down.sentDone_step {cfg : Config} {ts : List ThreadId} {st st' : Cluster} {t : ThreadId}
    {nd : Node} {out : List Message} (h : Down cfg ts st) (hi : Inv cfg st)
    (hm : Moved cfg st t nd out st') (hr : run cfg ts = some st) (i : SizeT) :
    (sentLog cfg (ts ++ [t])).countP (isDone i) = if HasLeft (st'.nodes i) then 1 else 0 := by
  have hnode := hm.node.sentDone (hi.nodes t.1) i
  have hpush : ∀ (nd : Node) ms, HasLeft (nd.push ms) = HasLeft nd := fun _ _ => rfl
  rw [hm.sentLog hr, List.countP_append, h.sentDone]
  by_cases hj : t.1 = i
  · rw [if_pos hj, if_pos hj] at hnode
    rw [← hj, hm.self, hpush, Nat.add_comm, ← hnode, hj]
  · rw [if_neg hj, if_neg hj] at hnode
    rw [hm.other (Ne.symm hj), hpush]
    omega

theorem Down.tearing_step {cfg : Config} {ts : List ThreadId} {st st' : Cluster} {t : ThreadId}
    {nd : Node} {out : List Message} (h : Down cfg ts st) (hi : Inv cfg st)
    (hm : Moved cfg st t nd out st') {j i : SizeT} (hj : (st'.nodes j).rcv = .tearingDown i) :
    j = 0 ∧ allDone cfg (st'.nodes 0).isNodeDone = true ∧ i ≤ cfg.numNodes := by
  by_cases ht : t = (j, .rcv)
  · subst ht
    obtain ⟨hs, hself⟩ := hm.rcvStep
    rw [hself, Node.push_rcv] at hj
    cases hs with
    | handleDone m hpc hb hz hlt =>
      have h0 : j = 0 := (hi.nodes j).storeId.symm.trans hz
      subst h0
      rw [hself, Node.push_isNodeDone]
      replace hj : (if allDone cfg (fun i => if i = m.sender then true
          else (st.nodes 0).isNodeDone i) then RcvPc.tearingDown 0 else .receiving) =
            .tearingDown i := hj
      split at hj
      · rename_i hd
        cases hj
        exact ⟨rfl, hd, UInt64.le_iff_toNat_le.mpr (Nat.zero_le _)⟩
      · cases hj
    | broadcast x hpc hlt =>
      cases hj
      obtain ⟨h0, hd, -⟩ := h.tearing j x hpc
      subst h0
      rw [hself, Node.push_isNodeDone]
      refine ⟨rfl, hd, ?_⟩
      have hx := UInt64.lt_iff_toNat_lt.mp hlt
      have hn := cfg.numNodes.toNat_lt
      rw [UInt64.le_iff_toNat_le, UInt64.toNat_add, UInt64.toNat_one, Nat.mod_eq_of_lt (by omega)]
      omega
    | _ => cases hj
  · rw [(hm.rcv ht).1] at hj
    obtain ⟨h0, hd, hle⟩ := h.tearing j i hj
    subst h0
    rw [(hm.rcv ht).2.1]
    exact ⟨rfl, hd, hle⟩

theorem countP_toNode_eq_zero {out : List Message} (h : ∀ m ∈ out, m.body ≠ .teardown)
    (j : SizeT) : (toNode out j).countP isTeardown = 0 :=
  List.countP_eq_zero.mpr fun m hm => by
    simpa [isTeardown] using h m (mem_toNode.mp hm).1

theorem succ_lt_iff {i j n : SizeT} (h : i < n) : j < i + 1 ↔ j < i ∨ j = i := by
  have hi := UInt64.lt_iff_toNat_lt.mp h
  have hn := n.toNat_lt
  rw [UInt64.lt_iff_toNat_lt, UInt64.lt_iff_toNat_lt, UInt64.toNat_add, UInt64.toNat_one,
    Nat.mod_eq_of_lt (by omega), ← UInt64.toNat_inj]
  omega

theorem due_of_ne {cfg : Config} (server : Node) (h : ∀ i, server.rcv ≠ .tearingDown i)
    (j : SizeT) : due cfg server j =
      if allDone cfg server.isNodeDone then if j < cfg.numNodes then 1 else 0 else 0 := by
  rw [due]
  cases hr : server.rcv with
  | tearingDown i => exact absurd hr (h i)
  | _ => rfl

/-- **What the server owes grows by what it sends.** -/
theorem Down.due_step {cfg : Config} {ts : List ThreadId} {st st' : Cluster} {t : ThreadId}
    {nd : Node} {out : List Message} (h : Down cfg ts st) (hi : Inv cfg st)
    (hm : Moved cfg st t nd out st') (j : SizeT) : due cfg (st'.nodes 0) j =
      due cfg (st.nodes 0) j + (toNode out j).countP isTeardown := by
  have hsends : ∀ m ∈ out, m.body = .teardown → t = (0, .rcv) ∧
      (st.nodes 0).rcv = .tearingDown m.target := by
    intro m hmem hb
    obtain ⟨hr, hpc, -⟩ := hm.node.sends_teardown (hi.nodes t.1) hmem hb
    have h0 := (h.tearing t.1 _ hpc).1
    rw [h0] at hpc
    exact ⟨Prod.ext h0 hr, hpc⟩
  by_cases ht : t = (0, .rcv)
  · subst ht
    obtain ⟨hs, hself⟩ := hm.rcvStep
    have hquiet : (∀ x, (st.nodes 0).rcv ≠ .tearingDown x) →
        (toNode out j).countP isTeardown = 0 := by
      intro hpc
      exact countP_toNode_eq_zero (fun m hmem hb => hpc _ (hsends m hmem hb).2) j
    -- no broadcast before nor after, and nobody ticked off
    have hsame : (∀ x, (st.nodes 0).rcv ≠ .tearingDown x) → (∀ x, nd.rcv ≠ .tearingDown x) →
        nd.isNodeDone = (st.nodes 0).isNodeDone → due cfg (st'.nodes 0) j =
          due cfg (st.nodes 0) j + (toNode out j).countP isTeardown := by
      intro hpc hpc' hd
      rw [hquiet hpc, hself, due_of_ne _ hpc, due_of_ne (nd.push _) hpc',
        Node.push_isNodeDone, hd, Nat.add_zero]
    cases hs with
    | handleDone m hpc hb hz hlt =>
      have hold : allDone cfg (st.nodes 0).isNodeDone ≠ true := by
        intro hd
        have := h.notYetDone hpc hb
        rw [allDone_iff.mp hd m.sender hlt] at this
        cases this
      rw [hquiet (fun x hx => by rw [hpc] at hx; cases hx), hself, due, due, if_neg hold,
        Node.push_isNodeDone, Node.push_rcv]
      split
      · rename_i hd
        replace hd : allDone cfg (fun i => if i = m.sender then true
          else (st.nodes 0).isNodeDone i) = true := hd
        show (if j < 0 then 1 else 0) = 0
        exact if_neg (UInt64.not_lt.mpr (UInt64.le_iff_toNat_le.mpr (Nat.zero_le _)))
      · rfl
    | broadcast x hpc hlt =>
      have hd := (h.tearing 0 x hpc).2.1
      rw [hself, due, due, Node.push_isNodeDone, Node.push_rcv, if_pos hd, if_pos hd, hpc]
      show (if j < x + 1 then 1 else 0) = (if j < x then 1 else 0) + _
      by_cases hj : j = x
      · subst hj
        rw [if_pos ((succ_lt_iff hlt).mpr (Or.inr rfl)), if_neg (UInt64.lt_irrefl j)]
        simp [toNode, Message.teardownMsg, Message.ofBody, isTeardown]
      · have hiff : j < x + 1 ↔ j < x := by rw [succ_lt_iff hlt, or_iff_left hj]
        simp only [hiff]
        simp [toNode, Message.teardownMsg, Message.ofBody, Ne.symm hj]
    | broadcastEnd x hpc hlt =>
      obtain ⟨-, hd, hle⟩ := h.tearing 0 x hpc
      have hx : x = cfg.numNodes := UInt64.le_antisymm hle (UInt64.not_lt.mp hlt)
      rw [hself, due, due, Node.push_isNodeDone, Node.push_rcv, if_pos hd, if_pos hd, hpc, hx]
      rfl
    | _ => refine hsame ?_ ?_ rfl <;> simp_all
  · rw [countP_toNode_eq_zero (fun m hmem hb => ht (hsends m hmem hb).1), due, due,
      (hm.rcv ht).1, (hm.rcv ht).2.1, Nat.add_zero]

/-- **Nothing is sent to a node behind its `TeardownMsg`.** -/
theorem Down.closed_step {cfg : Config} {ts : List ThreadId} {st st' : Cluster} {t : ThreadId}
    {nd : Node} {out : List Message} (h : Down cfg ts st) (hi : Inv cfg st) (hl : NoLockHeld st)
    (hm : Moved cfg st t nd out st') (hr : run cfg ts = some st) :
    (sentLog cfg (ts ++ [t])).Pairwise fun m m' => m.body = .teardown → m'.target ≠ m.target := by
  rw [hm.sentLog hr, List.pairwise_append]
  refine ⟨h.closed, ?_, ?_⟩
  · by_cases hex : ∃ m ∈ out, m.body = .teardown
    · obtain ⟨m, hmem, hb⟩ := hex
      rw [(hm.node.sends_teardown (hi.nodes t.1) hmem hb).2.2]
      exact List.pairwise_singleton ..
    · refine List.pairwise_of_forall_mem_list fun m hmem m' _ hb => ?_
      exact absurd ⟨m, hmem, hb⟩ hex
  · intro m hmem m' hmem' hb
    -- the server owed `m.target` its `TeardownMsg`, so all nodes have left
    have hpos : 0 < due cfg (st.nodes 0) m.target := by
      rw [← h.count]
      exact List.countP_pos_iff.mpr ⟨m, mem_toNode.mpr ⟨hmem, rfl⟩, by simp [isTeardown, hb]⟩
    rw [due] at hpos
    split at hpos
    · rename_i hd
      rcases hm.quiet hi hl (fun i hlt => h.allLeft hd hlt) with hout | ⟨i, -, hpc, hout⟩
      · rw [hout] at hmem'
        cases hmem'
      · rw [hout] at hmem'
        rw [List.mem_singleton.mp hmem']
        rw [(h.tearing t.1 i hpc).1] at hpc
        rw [hpc] at hpos
        rintro rfl
        exact absurd hpos (by simp)
    · cases hpos

/-- A step that ends the process sends and handles nothing. -/
theorem Down.fault {cfg : Config} {ts : List ThreadId} {st : Cluster} {t : ThreadId} {f : Fault}
    (h : Down cfg ts st) (hr : run cfg ts = some st)
    (he : nodeStep cfg (st.nodes t.1) t.2 = some (.error f)) :
    Down cfg (ts ++ [t]) { st with fault := some f } := by
  have hsent : sentLog cfg (ts ++ [t]) = sentLog cfg ts := by
    rw [sentLog, Schedule.trace_snoc _ hr, sent, he, List.append_nil]
    rfl
  have hhandled : ∀ j, handledLog cfg j (ts ++ [t]) = handledLog cfg j ts := by
    intro j
    rw [handledLog, Schedule.trace_snoc _ hr, handled]
    split
    · rename_i ht
      subst ht
      replace he : Pseudo.rcvStep cfg (st.nodes j) = some (.error f) := he
      rw [he, List.append_nil]
      rfl
    · exact List.append_nil _
  exact {
    fifo := fun j => by rw [hsent, hhandled]; exact h.fifo j
    exited := fun j => by rw [hhandled]; exact h.exited j
    isNodeDone := fun i => by rw [hhandled]; exact h.isNodeDone i
    sentDone := fun i => by rw [hsent]; exact h.sentDone i
    doneTo := fun m hm => h.doneTo m (hsent ▸ hm)
    tearing := h.tearing
    count := fun j => by rw [hsent]; exact h.count j
    closed := by rw [hsent]; exact h.closed }

theorem down_init (cfg : Config) : Down cfg [] Cluster.init where
  fifo j := rfl
  exited j := by simp [Cluster.init, Node.new, handledLog, Schedule.trace]
  isNodeDone i := by simp [Cluster.init, Node.new, handledLog, Schedule.trace]
  sentDone i := rfl
  doneTo m hm := by cases hm
  tearing j i hj := by cases hj
  count j := by
    rw [due_of_ne _ (fun i hi => by cases hi)]
    split
    · rename_i hd
      rw [if_neg fun hj => ?_]
      · rfl
      · -- node `j` is not done
        cases allDone_iff.mp hd j hj
    · rfl
  closed := List.Pairwise.nil

/-- **The order of messages survives every step.** -/
theorem Down.snoc {cfg : Config} (hp : ¬ Polls cfg) (h0 : cfg.serverIndex = 0)
    {ts : List ThreadId} {st st' : Cluster} {t : ThreadId} (h : Down cfg ts st)
    (hr : run cfg ts = some st) (hs : step cfg st t = some st') : Down cfg (ts ++ [t]) st' := by
  have hi : Inv cfg st := Reachable.inv ⟨ts, hr⟩
  rcases step_cases hs with ⟨nd, out, hm⟩ | ⟨f, he, rfl⟩
  · have hsends := (hm.node.nodeOk hm.lt (hi.nodes t.1)).2
    exact {
      fifo := h.fifo_step hm hr
      exited := h.exited_step hi hm hr
      isNodeDone := h.isNodeDone_step hi hm hr
      sentDone := h.sentDone_step hi hm hr
      doneTo := by
        intro m hmem hb
        rw [hm.sentLog hr] at hmem
        rcases List.mem_append.mp hmem with hmem | hmem
        · exact h.doneTo m hmem hb
        · exact ((hsends m hmem).2.done hb).1.trans h0
      tearing := fun j i => h.tearing_step hi hm
      count := by
        intro j
        rw [hm.sentLog hr, toNode_append, List.countP_append, h.count, h.due_step hi hm]
      closed := h.closed_step hi (hi.noLockHeld hp) hm hr }
  · exact h.fault hr he

theorem down_run {cfg : Config} (hp : ¬ Polls cfg) (h0 : cfg.serverIndex = 0)
    {ts : List ThreadId} {st : Cluster} (h : run cfg ts = some st) : Down cfg ts st :=
  Schedule.run_induction (P := Down cfg) (down_init cfg)
    (fun _ _ _ _ hr hd hs => hd.snoc hp h0 hr hs) h

end Pseudo

end Eau2
