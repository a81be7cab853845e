import Eau2.Base.History
import Eau2.Network.Pseudo.Order

/-!
# One writer, many readers

All puts to one key are made by the application of one node, the writer.  The values
it has put are those the home of the key has stored, one after the other, and behind
them those that still lie in the queue of the home (`Session.puts`).  A reply carries
what the home had stored last when it was made; so it may be what its reader reads
next, however long it is on its way (`Session.replies`).  A request of the writer
itself stands behind all of its puts (`Own`).

* `Session.snoc`, `Own.snoc`: the invariants and one step.
* `session_guarantees`: **the writer reads what it put last, and every other
  application reads the values in the order in which they were put.**
-/

namespace Eau2

namespace Pseudo

open KVStore (Drained Taken)

/-! ### Puts and reads along a run -/

/-- What the application of a node is about to put under `k`. -/
def putting (nd : Node) (k : Key) : List Value :=
  match nd.app with
  | .calling (.put k' v) => if k' = k then [v] else []
  | _ => []

/-- The put to `k` that thread `t` makes in its next step: the node, and the value. -/
def putBy (cfg : Config) (k : Key) (st : Cluster) (t : ThreadId) : List (SizeT × Value) :=
  if t.2 = .app then
    match appStep cfg (st.nodes t.1) with
    | some (.ok _) => (putting (st.nodes t.1) k).map fun v => (t.1, v)
    | _ => []
  else []

def putLog (cfg : Config) (k : Key) (ts : List ThreadId) : List (SizeT × Value) :=
  Schedule.trace (step cfg) (putBy cfg k) Cluster.init ts

def values (cfg : Config) (k : Key) (ts : List ThreadId) : List Value :=
  (putLog cfg k ts).map Prod.snd

instance (nd : Node) (k : Key) (b : Bool) : Decidable (InGet nd k b) :=
  inferInstanceAs (Decidable (_ ∨ _))

/-- What `getValue(k, true)` returns to the application of node `i` in the next step
of thread `t`. -/
def readBy (cfg : Config) (i : SizeT) (k : Key) (st : Cluster) (t : ThreadId) :
    List (Option Value) :=
  if t = (i, .app) ∧ InGet (st.nodes i) k true then
    match appStep cfg (st.nodes i) with
    | some (.ok (nd, _)) => nd.results.drop (st.nodes i).results.length
    | _ => []
  else []

def readLog (cfg : Config) (i : SizeT) (k : Key) (ts : List ThreadId) : List (Option Value) :=
  Schedule.trace (step cfg) (readBy cfg i k) Cluster.init ts

theorem Moved.values {cfg : Config} {ts : List ThreadId} {st st' : Cluster} {t : ThreadId}
    {nd : Node} {out : List Message} (hm : Moved cfg st t nd out st')
    (hr : run cfg ts = some st) (k : Key) : values cfg k (ts ++ [t]) =
      values cfg k ts ++ if t.2 = .app then putting (st.nodes t.1) k else [] := by
  rw [Pseudo.values, putLog, Schedule.trace_snoc _ hr, List.map_append]
  congr 1
  rw [putBy]
  split
  · rename_i ht
    have hok := hm.ok
    rw [ht] at hok
    replace hok : appStep cfg (st.nodes t.1) = some (.ok (nd, out)) := hok
    rw [hok]
    show List.map Prod.snd (List.map _ _) = _
    rw [List.map_map]
    exact List.map_id _
  · rfl

theorem Moved.writer {cfg : Config} {st st' : Cluster} {t : ThreadId} {nd : Node}
    {out : List Message} (hm : Moved cfg st t nd out st') {k : Key} {w : SizeT}
    (hw : ∀ p ∈ putBy cfg k st t, p.1 = w) (ht : t.2 = .app)
    (hp : putting (st.nodes t.1) k ≠ []) : t.1 = w := by
  obtain ⟨v, hv⟩ := List.exists_mem_of_ne_nil _ hp
  refine hw (t.1, v) ?_
  have hok := hm.ok
  rw [ht] at hok
  replace hok : appStep cfg (st.nodes t.1) = some (.ok (nd, out)) := hok
  rw [putBy, if_pos ht, hok]
  exact List.mem_map_of_mem hv

theorem Moved.readLog {cfg : Config} {ts : List ThreadId} {st st' : Cluster} {t : ThreadId}
    {nd : Node} {out : List Message} (hm : Moved cfg st t nd out st')
    (hr : run cfg ts = some st) (i : SizeT) (k : Key) : readLog cfg i k (ts ++ [t]) =
      readLog cfg i k ts ++ if t = (i, .app) ∧ InGet (st.nodes i) k true then
        nd.results.drop (st.nodes i).results.length else [] := by
  rw [Pseudo.readLog, Schedule.trace_snoc _ hr]
  show _ ++ readBy cfg i k st t = _ ++ _
  congr 1
  rw [readBy]
  split
  · rename_i ht
    have hok := hm.ok
    rw [ht.1] at hok
    replace hok : appStep cfg (st.nodes i) = some (.ok (nd, out)) := hok
    rw [hok]
  · rfl

/-! ### The puts on their way -/

def putTo (k : Key) (m : Message) : Option Value :=
  match m.body with
  | .put k' v => if k' = k then some v else none
  | _ => none

/-- The puts to `k` that a node has received and not handled yet. -/
def arriving (nd : Node) (k : Key) : List Value := (inbox nd).filterMap (putTo k)

theorem putTo_eq_none {k : Key} {m : Message} (h : ∀ v, m.body ≠ .put k v) : putTo k m = none := by
  rw [putTo]
  split
  · rename_i k' v hb
    split
    · rename_i hk
      exact absurd hb (hk ▸ h v)
    · rfl
  · rfl

theorem filterMap_putTo_replies {s s' : KVStore} {k' : Key} {replies : List Message}
    (hd : Drained s s' k' replies) (k : Key) : replies.filterMap (putTo k) = [] := by
  refine List.filterMap_eq_nil_iff.mpr fun m hm => putTo_eq_none fun v hb => ?_
  obtain ⟨w, hb'⟩ := body_of_drained hd hm
  rw [hb] at hb'
  cases hb'

theorem key_eq {k k' : Key} {id : SizeT} (hk : k.homeNode = id) (hk' : k'.homeNode = id)
    (h : k'.kStr = k.kStr) : k' = k := by
  obtain ⟨s, n⟩ := k
  obtain ⟨s', n'⟩ := k'
  simp only at hk hk' h
  rw [h, hk, hk']

theorem lookup_insert_eq {kv : KVStore} {k k' : Key} {id : SizeT} (hk : k.homeNode = id)
    (hk' : k'.homeNode = id) (v : Value) : (kv.insert k' v).lookup k =
      (if k' = k then [v] else []).getLast?.or (kv.lookup k) := by
  rw [KVStore.lookup_insert]
  by_cases h : k' = k
  · rw [if_pos h, if_pos (by rw [h])]
    rfl
  · rw [if_neg h, if_neg fun hs => h (key_eq hk hk' hs)]
    rfl

/-- **What the application puts goes into its own store or on its way.** -/
theorem AppStep.puts {cfg : Config} {id : SizeT} {nd nd' : Node} {out : List Message}
    (h : NodeOk cfg id nd) (hs : AppStep cfg nd nd' out) (k : Key) :
    out.filterMap (putTo k) = (if k.homeNode = id then [] else putting nd k) ∧
      (k.homeNode = id → nd'.kv.lookup k = (putting nd k).getLast?.or (nd.kv.lookup k)) := by
  have hsid := h.storeId
  have hquiet : putting nd k = [] → out.filterMap (putTo k) = [] →
      nd'.kv.kvMap = nd.kv.kvMap → out.filterMap (putTo k) =
          (if k.homeNode = id then [] else putting nd k) ∧
        (k.homeNode = id → nd'.kv.lookup k = (putting nd k).getLast?.or (nd.kv.lookup k)) := by
    intro hput hout hmap
    rw [hput, ite_self]
    refine ⟨hout, fun _ => ?_⟩
    rw [KVStore.lookup, hmap]
    rfl
  cases hs with
  | putRemote k' v ha hk ht =>
    have hput : putting nd k = if k' = k then [v] else [] := by rw [putting, ha]
    by_cases hkk : k' = k
    · have hid : ¬ k.homeNode = id := fun he => hk (by rw [hkk, he, hsid])
      rw [hput, if_pos hkk, if_neg hid]
      refine ⟨?_, fun he => absurd he hid⟩
      simp [putTo, Message.putMsg, Message.ofBody, hkk]
    · rw [if_neg hkk] at hput
      refine hquiet hput ?_ rfl
      simp [putTo, Message.putMsg, Message.ofBody, hkk]
  | putLocal k' v ha hk =>
    have hput : putting nd k = if k' = k then [v] else [] := by rw [putting, ha]
    rw [hput]
    refine ⟨?_, fun he => lookup_insert_eq he (hk.trans hsid) v⟩
    by_cases hkk : k' = k
    · rw [if_pos (by rw [← hkk, hk, hsid])]
      rfl
    · rw [if_neg hkk, ite_self]
      rfl
  | drain k' kv replies ha hl hd ht =>
    exact hquiet (by rw [putting, ha]) (filterMap_putTo_replies hd k) hd.kvMap
  | ask k' b ha hk ht => exact hquiet (by rw [putting, ha]) (by cases b <;> rfl) rfl
  | take k' b val kv ha hl ht => exact hquiet (by rw [putting, ha]) rfl ht.kvMap
  | getLocal k' b r ha hk hv hr => exact hquiet (by rw [putting, ha]) rfl rfl
  | giveUp k' ha hl hg => exact hquiet (by rw [putting, ha]) rfl rfl
  | _ =>
    rename_i ha _
    exact hquiet (by rw [putting, ha]) rfl rfl

theorem filterMap_current {nd : Node} {k : Key} (h : ∀ m, nd.rcv = .handling m →
    ∀ v, m.body ≠ .put k v) : (current nd).filterMap (putTo k) = [] :=
  List.filterMap_eq_nil_iff.mpr fun m hm => putTo_eq_none (h m (mem_current.mp hm))

/-- **The receiver stores the puts it handles, and sends none.** -/
theorem RcvStep.puts {cfg : Config} {id : SizeT} {nd nd' : Node} {out : List Message}
    (h : NodeOk cfg id nd) (hs : RcvStep cfg nd nd' out) (k : Key) :
    out.filterMap (putTo k) = [] ∧ (k.homeNode = id → nd'.kv.lookup k =
      ((current nd).filterMap (putTo k)).getLast?.or (nd.kv.lookup k)) := by
  have hsid := h.storeId
  have hrcv := h.rcv
  have hquiet : (current nd).filterMap (putTo k) = [] → out.filterMap (putTo k) = [] →
      nd'.kv.lookup k = nd.kv.lookup k → out.filterMap (putTo k) = [] ∧
        (k.homeNode = id → nd'.kv.lookup k =
          ((current nd).filterMap (putTo k)).getLast?.or (nd.kv.lookup k)) := by
    intro hput hout hlook
    rw [hput]
    exact ⟨hout, fun _ => hlook⟩
  cases hs with
  | put m k' v hr hb hk =>
    have hcur : (current nd).filterMap (putTo k) = if k' = k then [v] else [] := by
      by_cases hkk : k' = k <;> simp [current, hr, putTo, hb, hkk]
    rw [hcur]
    exact ⟨rfl, fun he => lookup_insert_eq he (hk.trans hsid) v⟩
  | serve m k' val hr hb hk hv =>
    refine hquiet ?_ rfl rfl
    rcases hb with hb | hb <;> simp [current, hr, putTo, hb]
  | miss m k' hr hb hk hv => exact hquiet (by simp [current, hr, putTo, hb]) rfl rfl
  | addReply m k' val hr hb hl =>
    exact hquiet (by simp [current, hr, putTo, hb]) rfl (KVStore.lookup_addToCache ..)
  | handleDone m hr hb hz hlt => exact hquiet (by simp [current, hr, putTo, hb]) rfl rfl
  | handleTeardown m hr hk =>
    have hkind := h.kind_of_handling hr
    refine hquiet (filterMap_current fun m' hr' v he => ?_) rfl rfl
    rw [hr] at hr'
    cases hr'
    rw [hk, he] at hkind
    cases hkind
  | skip m hr hk =>
    have hkind := h.kind_of_handling hr
    refine hquiet (filterMap_current fun m' hr' v he => ?_) rfl rfl
    rw [hr] at hr'
    cases hr'
    rw [he] at hkind
    rcases hk with hk | hk <;> rw [hk] at hkind <;> cases hkind
  | reply m hr ht =>
    rw [hr] at hrcv
    obtain ⟨-, -, k', v, he, -⟩ := hrcv
    refine hquiet (by simp [current, hr]) ?_ rfl
    rw [he]
    rfl
  | park k' m hr hl =>
    exact hquiet (by simp [current, hr]) rfl (KVStore.lookup_addToCache ..)
  | drain k' kv replies hr hl hd ht =>
    refine hquiet (by simp [current, hr]) (filterMap_putTo_replies hd k) ?_
    rw [KVStore.lookup, hd.kvMap]
    rfl
  | receive m queue hr hq => exact hquiet (by simp [current, hr]) rfl rfl
  | broadcast i hr hi => exact hquiet (by simp [current, hr]) rfl rfl
  | broadcastEnd i hr hi => exact hquiet (by simp [current, hr]) rfl rfl

/-! ### The writer's values -/

/-- Before the writer's next step: `applied` is what the home of `k` has stored so far,
in order. -/
structure Session (cfg : Config) (k : Key) (w : SizeT) (ts : List ThreadId) (st : Cluster)
    (applied : List Value) : Prop where
  puts : values cfg k ts = applied ++ arriving (st.nodes k.homeNode) k
  stored : (st.nodes k.homeNode).kv.lookup k = applied.getLast?
  atHome : k.homeNode = w → arriving (st.nodes k.homeNode) k = []
  reads : ∀ i, Ascends (applied.map some) (readLog cfg i k ts)
  replies : ∀ i j m v, m ∈ mail (st.nodes j) k → m.body = .replyData k v → m.target = i →
    Ascends (applied.map some) (readLog cfg i k ts ++ [some v])

theorem session_init (cfg : Config) (k : Key) (w : SizeT) : Session cfg k w [] Cluster.init [] where
  puts := rfl
  stored := by simp [Cluster.init, Node.new, KVStore.new, KVStore.lookup]
  atHome _ := rfl
  reads i := .nil _
  replies i j m v hm := absurd hm (not_mem_mail_init j k m)

theorem arriving_push (nd : Node) (ms : List Message) (k : Key) :
    arriving (nd.push ms) k = arriving nd k ++ ms.filterMap (putTo k) := by
  rw [arriving, arriving, ← List.filterMap_append, inbox, inbox, List.append_assoc]
  rfl

theorem filterMap_toNode {cfg : Config} {out : List Message} (h : Sends cfg out) (k : Key) :
    (toNode out k.homeNode).filterMap (putTo k) = out.filterMap (putTo k) := by
  rw [toNode, List.filterMap_filter]
  refine List.filterMap_congr fun m hm => ?_
  split
  · rfl
  · rename_i ht
    refine (putTo_eq_none fun v hb => ht ?_).symm
    rw [decide_eq_true_eq, (h m hm).2.put k v hb]

/-- **The stored values grow by what was put or had arrived.** -/
theorem Session.applied {cfg : Config} {k : Key} {w : SizeT} {ts : List ThreadId}
    {st st' : Cluster} {applied : List Value} (h : Session cfg k w ts st applied)
    (hi : Inv cfg st) (hr : run cfg ts = some st) {t : ThreadId} {nd : Node} {out : List Message}
    (hm : Moved cfg st t nd out st')
    (hw : t.2 = .app → putting (st.nodes t.1) k ≠ [] → t.1 = w) :
    ∃ applied', applied <+: applied' ∧
      values cfg k (ts ++ [t]) = applied' ++ arriving (st'.nodes k.homeNode) k ∧
      (st'.nodes k.homeNode).kv.lookup k = applied'.getLast? ∧
      (k.homeNode = w → arriving (st'.nodes k.homeNode) k = []) := by
  have hsends := (hm.node.nodeOk hm.lt (hi.nodes t.1)).2
  have hok := hi.nodes t.1
  have hnode := hm.node
  have hval := hm.values hr k
  have hout := filterMap_toNode hsends k
  cases hrole : t.2 with
  | app =>
    rw [hrole] at hnode
    replace hnode : AppStep cfg (st.nodes t.1) nd out := hnode
    obtain ⟨hput, hlook⟩ := hnode.puts hok k
    rw [hrole, if_pos rfl] at hval
    by_cases hj : k.homeNode = t.1
    · -- the home puts: what it puts is stored at once
      have harr : arriving (st'.nodes k.homeNode) k = arriving (st.nodes k.homeNode) k := by
        rw [if_pos hj] at hput
        have hin : arriving nd k = arriving (st.nodes t.1) k := by
          rw [arriving, hnode.inbox.1, arriving]
        rw [hj, hm.self, arriving_push, hin, ← hj, hout, hput, List.append_nil]
      refine ⟨applied ++ putting (st.nodes t.1) k, List.prefix_append _ _, ?_, ?_, ?_⟩
      · rw [hval, harr, h.puts]
        by_cases hp : putting (st.nodes t.1) k = []
        · rw [hp, List.append_nil, List.append_nil]
        · rw [h.atHome (hj.trans (hw hrole hp)), List.append_nil, List.append_nil]
      · rw [hj, hm.self, Node.push_kv, hlook hj, List.getLast?_append, ← h.stored, hj]
      · rw [harr]
        exact h.atHome
    · rw [if_neg hj] at hput
      refine ⟨applied, List.prefix_rfl, ?_, ?_, ?_⟩
      · rw [hval, hm.other hj, arriving_push, hout, hput, h.puts, List.append_assoc]
      · rw [hm.other hj, Node.push_kv, h.stored]
      · intro hkw
        have hp : putting (st.nodes t.1) k = [] := by
          by_contra hp
          exact hj (hkw.trans (hw hrole hp).symm)
        rw [hm.other hj, arriving_push, hout, hput, hp, List.append_nil]
        exact h.atHome hkw
  | rcv =>
    rw [hrole] at hnode
    replace hnode : RcvStep cfg (st.nodes t.1) nd out := hnode
    obtain ⟨hput, hlook⟩ := hnode.puts hok k
    rw [hrole, if_neg (by simp), List.append_nil] at hval
    by_cases hj : k.homeNode = t.1
    · -- the home handles a message: a put in it has arrived
      have harr : arriving (st.nodes k.homeNode) k = (current (st.nodes t.1)).filterMap (putTo k) ++
          arriving (st'.nodes k.homeNode) k := by
        rw [hj, hm.self, arriving_push, ← hj, hout, hput, List.append_nil, arriving, arriving,
          ← List.filterMap_append, hj, ← hnode.inbox]
      refine ⟨applied ++ (current (st.nodes t.1)).filterMap (putTo k), List.prefix_append _ _,
        ?_, ?_, ?_⟩
      · rw [hval, h.puts, harr, List.append_assoc]
      · rw [hj, hm.self, Node.push_kv, hlook hj, List.getLast?_append, ← h.stored, hj]
      · intro hkw
        have hnil := h.atHome hkw
        rw [harr] at hnil
        exact (List.append_eq_nil_iff.mp hnil).2
    · have harr : arriving (st'.nodes k.homeNode) k = arriving (st.nodes k.homeNode) k := by
        rw [hm.other hj, arriving_push, hout, hput, List.append_nil]
      refine ⟨applied, List.prefix_rfl, ?_, ?_, ?_⟩
      · rw [hval, h.puts, harr]
      · rw [hm.other hj, Node.push_kv, h.stored]
      · rw [harr]
        exact h.atHome

/-! ### What may be read -/

theorem NodeOk.reply_home {cfg : Config} {id : SizeT} {nd : Node} (h : NodeOk cfg id nd) {k : Key}
    {m : Message} {v : Value} (hm : m ∈ mail nd k) (hb : m.body = .replyData k v) :
    k.homeNode ≠ m.target := by
  have hacc : Accepts cfg id m → k.homeNode ≠ m.target := by
    intro ha
    rw [ha.target]
    exact ha.replyData k v hb
  rcases mem_mail.mp hm with hlet | hcache
  · rcases List.mem_append.mp hlet with hqueue | hhead
    · exact hacc (h.queue m hqueue)
    · have hrcv := h.rcv
      cases hr : nd.rcv with
      | handling m' =>
        rw [hr] at hhead hrcv
        rw [List.mem_singleton.mp hhead] at hacc ⊢
        exact hacc hrcv
      | replying m' =>
        rw [hr] at hhead hrcv
        obtain ⟨-, hne, k', v', he, hk'⟩ := hrcv
        rw [List.mem_singleton.mp hhead] at hb ⊢
        rw [he] at hb
        cases hb
        rw [hk']
        exact Ne.symm hne
      | parking k' m' =>
        rw [hr] at hhead hrcv
        rw [List.mem_singleton.mp hhead] at hacc ⊢
        exact hacc hrcv.1
      | _ =>
        rw [hr] at hhead
        cases hhead
  · exact hacc (h.cached_accepts hcache)

theorem Reachable.no_token {cfg : Config} {st : Cluster} (h : Reachable cfg st) {i : SizeT}
    {k : Key} (hl : (st.nodes i).lockHeld = false) (hk : k.homeNode ≠ i)
    (ha : ∀ b, (st.nodes i).app ≠ .awaiting k b) {j : SizeT} {m : Message}
    (hm : m ∈ mail (st.nodes j) k) : isToken i k m = false := by
  by_contra ht
  obtain ⟨b, hb⟩ := awaiting_of_token (h.inv.nodes j) (h.balance hl hk) hm
    (Bool.not_eq_false _ ▸ ht)
  exact ha b hb

theorem AppStep.read {cfg : Config} {id : SizeT} {nd nd' : Node} {out : List Message}
    (h : NodeOk cfg id nd) (hs : AppStep cfg nd nd' out) {k : Key} (hin : InGet nd k true) :
    nd'.results.drop nd.results.length = [] ∨
      ∃ v, nd'.results.drop nd.results.length = [some v] ∧
        (k.homeNode = id ∧ nd.kv.lookup k = some v ∨
          k.homeNode ≠ id ∧ nd'.lockHeld = false ∧ (∀ b, nd'.app ≠ .awaiting k b) ∧
            ∃ m ∈ nd.kv.cached k, m.body = .replyData k v) := by
  have hsid := h.storeId
  have happ := h.app
  have hpc : ∀ {pc : AppPc}, nd.app = pc → pc = .calling (.getValue k true) ∨
      pc = .awaiting k true := fun ha => ha ▸ hin
  cases hs with
  | getLocal k' b r ha hk hv hr =>
    rcases hpc ha with he | he
    · cases he
      obtain ⟨v, rfl⟩ := Option.isSome_iff_exists.mp (hr rfl)
      refine Or.inr ⟨v, ?_, Or.inl ⟨hk.trans hsid, hv⟩⟩
      exact List.drop_left
    · cases he
  | take k' b val kv ha hl ht =>
    rcases hpc ha with he | he
    · cases he
    · cases he
      rw [ha] at happ
      obtain ⟨m, k₀, hc, hb⟩ := ht.reply
      have hmem : m ∈ nd.kv.cached k := by
        rw [hc]
        exact List.mem_singleton.mpr rfl
      obtain ⟨v, hb'⟩ := h.cached_reply happ.1 hmem
      rw [hb] at hb'
      cases hb'
      refine Or.inr ⟨val, ?_, Or.inr ⟨happ.1, hl, fun b hb => ?_, m, hmem, hb⟩⟩
      · exact List.drop_left
      · cases hb
  | ask k' b ha hk ht => exact Or.inl List.drop_length
  | putRemote k' v ha hk ht =>
    rcases hpc ha with he | he <;> cases he
  | putLocal k' v ha hk =>
    rcases hpc ha with he | he <;> cases he
  | drain k' kv replies ha hl hd ht =>
    rcases hpc ha with he | he <;> cases he
  | giveUp k' ha hl hg =>
    rcases hpc ha with he | he <;> cases he
  | _ => exact Or.inl List.drop_length

theorem getLast?_map_some {applied : List Value} {v : Value} (h : applied.getLast? = some v) :
    (applied.map some).getLast? = some (some v) := by
  rw [List.getLast?_map, h]
  rfl

/-- **What is read goes on from what was read.** -/
theorem Session.reads_step {cfg : Config} {k : Key} {w : SizeT} {ts : List ThreadId}
    {st st' : Cluster} {applied : List Value} (h : Session cfg k w ts st applied)
    (hi : Inv cfg st) (hr : run cfg ts = some st) {t : ThreadId} {nd : Node} {out : List Message}
    (hm : Moved cfg st t nd out st') (i : SizeT) :
    Ascends (applied.map some) (readLog cfg i k (ts ++ [t])) := by
  rw [hm.readLog hr]
  split
  · rename_i ht
    obtain ⟨rfl, hin⟩ := ht
    have hnode : AppStep cfg (st.nodes i) nd out := hm.node
    rcases hnode.read (hi.nodes i) hin with hnil | ⟨v, hv, hfrom⟩
    · rw [hnil, List.append_nil]
      exact h.reads i
    · rw [hv]
      rcases hfrom with ⟨hk, hlook⟩ | ⟨-, -, -, m, hmem, hb⟩
      · refine (h.reads i).last (getLast?_map_some ?_)
        rw [← h.stored, hk, hlook]
      · exact h.replies i i m v (mem_mail.mpr (Or.inr hmem)) hb
          ((hi.nodes i).cached_accepts hmem).target
  · rw [List.append_nil]
    exact h.reads i

theorem Moved.readLog_of_reply {cfg : Config} {ts : List ThreadId} {st st' : Cluster}
    {t : ThreadId} {nd : Node} {out : List Message} (hm : Moved cfg st t nd out st')
    (hi : Inv cfg st) (hr : run cfg ts = some st) (hreach : Reachable cfg st') {i j : SizeT}
    {k : Key} {m : Message} {v : Value} (hmem : m ∈ mail (st'.nodes j) k)
    (hb : m.body = .replyData k v) (ht : m.target = i) :
    Pseudo.readLog cfg i k (ts ++ [t]) = Pseudo.readLog cfg i k ts := by
  rw [hm.readLog hr]
  split
  · rename_i hc
    obtain ⟨rfl, hin⟩ := hc
    have hnode : AppStep cfg (st.nodes i) nd out := hm.node
    have hself := hm.self
    rcases hnode.read (hi.nodes i) hin with hnil | ⟨v', -, ⟨hk, -⟩ | ⟨hk, hl, ha, -⟩⟩
    · rw [hnil, List.append_nil]
    · exact absurd (hk.trans ht.symm) ((hreach.inv.nodes j).reply_home hmem hb)
    · have hno := hreach.no_token (i := i) (k := k) (by rw [hself]; exact hl) hk
        (by rw [hself]; exact ha) hmem
      rw [isToken_of_reply hb ht] at hno
      cases hno
  · exact List.append_nil _

/-- **A reply may be what its reader reads next.** -/
theorem Session.replies_step {cfg : Config} {k : Key} {w : SizeT} {ts : List ThreadId}
    {st st' : Cluster} {applied : List Value} (h : Session cfg k w ts st applied)
    (hi : Inv cfg st) (hr : run cfg ts = some st) {t : ThreadId} {nd : Node} {out : List Message}
    (hm : Moved cfg st t nd out st') (hreach : Reachable cfg st') (i j : SizeT) (m : Message)
    (v : Value) (hmem : m ∈ mail (st'.nodes j) k) (hb : m.body = .replyData k v)
    (ht : m.target = i) : Ascends (applied.map some) (readLog cfg i k (ts ++ [t]) ++ [some v]) := by
  rw [hm.readLog_of_reply hi hr hreach hmem hb ht]
  rcases hm.origin hi hmem with ⟨j', hold⟩ | hf
  · exact h.replies i j' m v hold hb ht
  · cases hf with
    | reply k' q v' hans =>
      cases hb
      refine (h.reads i).last (getLast?_map_some ?_)
      rw [← h.stored, hans.home]
      exact hans.stored
    | put k v ha => cases hb
    | request k b ha hb' => cases b <;> cases hb
    | done ha => cases hb
    | teardown i ha => cases hb

theorem logs_fault {cfg : Config} {ts : List ThreadId} {st : Cluster} {t : ThreadId} {f : Fault}
    (hr : run cfg ts = some st) (he : nodeStep cfg (st.nodes t.1) t.2 = some (.error f))
    (k : Key) : values cfg k (ts ++ [t]) = values cfg k ts ∧
      ∀ i, readLog cfg i k (ts ++ [t]) = readLog cfg i k ts := by
  constructor
  · rw [values, putLog, Schedule.trace_snoc _ hr, putBy]
    split
    · rename_i ht
      rw [ht] at he
      replace he : appStep cfg (st.nodes t.1) = some (.error f) := he
      rw [he, List.append_nil]
      rfl
    · rw [List.append_nil]
      rfl
  · intro i
    rw [readLog, Schedule.trace_snoc _ hr, readBy]
    split
    · rename_i ht
      rw [ht.1] at he
      replace he : appStep cfg (st.nodes i) = some (.error f) := he
      rw [he, List.append_nil]
      rfl
    · exact List.append_nil _

/-- **The writer's values survive every step.** -/
theorem Session.snoc {cfg : Config} {k : Key} {w : SizeT} {ts : List ThreadId}
    {st st' : Cluster} {t : ThreadId} {applied : List Value} (h : Session cfg k w ts st applied)
    (hr : run cfg ts = some st) (hs : step cfg st t = some st')
    (hw : ∀ p ∈ putBy cfg k st t, p.1 = w) : ∃ applied', Session cfg k w (ts ++ [t]) st' applied' := by
  have hi : Inv cfg st := Reachable.inv ⟨ts, hr⟩
  have hreach : Reachable cfg st' := Reachable.next ⟨ts, hr⟩ hs
  rcases step_cases hs with ⟨nd, out, hm⟩ | ⟨f, he, rfl⟩
  · obtain ⟨applied', hpre, hputs, hstored, hhome⟩ := h.applied hi hr hm (hm.writer hw)
    have hpre' : applied.map some <+: applied'.map some := hpre.map some
    exact ⟨applied', {
      puts := hputs
      stored := hstored
      atHome := hhome
      reads := fun i => (h.reads_step hi hr hm i).mono hpre'
      replies := fun i j m v hmem hb ht =>
        (h.replies_step hi hr hm hreach i j m v hmem hb ht).mono hpre' }⟩
  · obtain ⟨hval, hread⟩ := logs_fault hr he k
    exact ⟨applied, {
      puts := hval.trans h.puts
      stored := h.stored
      atHome := h.atHome
      reads := fun i => hread i ▸ h.reads i
      replies := fun i => hread i ▸ h.replies i }⟩

/-! ### The writer's own reads -/

def Asks (w : SizeT) (k : Key) (q : Message) : Prop :=
  (q.body = .getData k ∨ q.body = .waitAndGet k) ∧ q.sender = w

theorem Asks.putTo {w : SizeT} {k : Key} {q : Message} (h : Asks w k q) : putTo k q = none := by
  refine putTo_eq_none fun v hb => ?_
  rcases h.1 with hq | hq <;> rw [hb] at hq <;> cases hq

/-- A request waits at its home, parked or about to be. -/
def Waits (nd : Node) (k : Key) (q : Message) : Prop :=
  q ∈ nd.kv.cached k ∨ nd.rcv = .parking k q

/-- **The writer's requests stand behind its puts.** No put to `k` comes after a request
of the writer, one that waits was made before the first put, and a reply carries what was
put last. -/
structure Own (cfg : Config) (k : Key) (w : SizeT) (ts : List ThreadId) (st : Cluster) :
    Prop where
  behind : (inbox (st.nodes k.homeNode)).Pairwise fun q m => Asks w k q → putTo k m = none
  waiting : ∀ q, Waits (st.nodes k.homeNode) k q → q.sender = w → values cfg k ts = []
  replies : ∀ j m v, m ∈ mail (st.nodes j) k → m.body = .replyData k v → m.target = w →
    (values cfg k ts).getLast? = some v

theorem mem_mail_of_inbox {nd : Node} {m : Message} (hm : m ∈ inbox nd) (k : Key) :
    m ∈ mail nd k := by
  refine mem_mail.mpr (Or.inl ?_)
  rcases List.mem_append.mp hm with hcur | hqueue
  · refine List.mem_append_right _ ?_
    rw [mem_current.mp hcur]
    exact List.mem_singleton.mpr rfl
  · exact List.mem_append_left _ hqueue

theorem NodeOk.waiting_token {cfg : Config} {id : SizeT} {nd : Node} (h : NodeOk cfg id nd)
    {k : Key} (hk : k.homeNode = id) {q : Message}
    (hq : Waits nd k q) : q ∈ mail nd k ∧ q.body = .waitAndGet k := by
  rcases hq with hq | hq
  · exact ⟨mem_mail.mpr (Or.inr hq), h.cached_waiter hk hq⟩
  · have hrcv := h.rcv
    rw [hq] at hrcv
    refine ⟨mem_mail.mpr (Or.inl (List.mem_append_right _ ?_)), hrcv.2⟩
    rw [hq]
    exact List.mem_singleton.mpr rfl

theorem Own.of_no_token {cfg : Config} {k : Key} {w : SizeT} {ts : List ThreadId} {st : Cluster}
    (hi : Inv cfg st) (h : ∀ j m, m ∈ mail (st.nodes j) k → isToken w k m = false) :
    Own cfg k w ts st where
  behind := by
    refine List.pairwise_of_forall_mem_list fun q hq m _ hask => ?_
    have hno := h k.homeNode q (mem_mail_of_inbox hq k)
    rw [isToken_of_ask hask.1 hask.2] at hno
    cases hno
  waiting := by
    intro q hq hs
    obtain ⟨hmem, hb⟩ := (hi.nodes k.homeNode).waiting_token rfl hq
    have hno := h k.homeNode q hmem
    rw [isToken_of_ask (Or.inr hb) hs] at hno
    cases hno
  replies := by
    intro j m v hmem hb ht
    have hno := h j m hmem
    rw [isToken_of_reply hb ht] at hno
    cases hno

/-- Where the home handles a request of the writer, all puts have been handled. -/
theorem Own.arriving {cfg : Config} {k : Key} {w : SizeT} {ts : List ThreadId} {st : Cluster}
    (h : Own cfg k w ts st) {q : Message} (hr : (st.nodes k.homeNode).rcv = .handling q)
    (hq : Asks w k q) : arriving (st.nodes k.homeNode) k = [] := by
  have hin : inbox (st.nodes k.homeNode) = q :: (st.nodes k.homeNode).queue := by
    rw [inbox, current, hr]
    rfl
  have hbehind := h.behind
  rw [hin, List.pairwise_cons] at hbehind
  rw [Pseudo.arriving, hin]
  refine List.filterMap_eq_nil_iff.mpr fun m hm => ?_
  rcases List.mem_cons.mp hm with rfl | hm
  · exact hq.putTo
  · exact hbehind.1 m hm hq

theorem Moved.inbox {cfg : Config} {st st' : Cluster} {t : ThreadId} {nd : Node}
    {out : List Message} (hm : Moved cfg st t nd out st') (j : SizeT) :
    ∃ l, l.Sublist (Pseudo.inbox (st.nodes j)) ∧ Pseudo.inbox (st'.nodes j) = l ++ toNode out j := by
  by_cases ht : t = (j, .rcv)
  · subst ht
    obtain ⟨hs, hself⟩ := hm.rcvStep
    refine ⟨Pseudo.inbox nd, ?_, ?_⟩
    · rw [hs.inbox]
      exact List.sublist_append_right _ _
    · rw [hself, Pseudo.inbox, Pseudo.inbox, List.append_assoc]
      rfl
  · exact ⟨_, List.Sublist.refl _, (hm.rcv ht).2.2⟩

theorem Moved.no_put {cfg : Config} {st st' : Cluster} {t : ThreadId} {nd : Node}
    {out : List Message} (hm : Moved cfg st t nd out st') (hi : Inv cfg st) {k : Key}
    (hp : t.2 = .app → putting (st.nodes t.1) k = []) : out.filterMap (putTo k) = [] := by
  have hnode := hm.node
  cases hrole : t.2 with
  | app =>
    rw [hrole] at hnode
    rw [(AppStep.puts (hi.nodes t.1) hnode k).1, hp hrole, ite_self]
  | rcv =>
    rw [hrole] at hnode
    exact (RcvStep.puts (hi.nodes t.1) hnode k).1

/-- **A request waits because it did, or because its key was missing.** -/
theorem NodeStep.waits {cfg : Config} {id : SizeT} {nd nd' : Node} {r : Role}
    {out : List Message} (h : NodeOk cfg id nd) (hs : NodeStep cfg nd r nd' out) {k : Key}
    (hk : k.homeNode = id) {q : Message} (hq : Waits nd' k q) : Waits nd k q ∨
      nd.rcv = .handling q ∧ q.body = .waitAndGet k ∧ nd.kv.lookup k = none := by
  have hrcv := h.rcv
  have herase : ∀ {k' : Key}, nd'.kv.cached k = (if k' = k then [] else nd.kv.cached k) →
      (∀ m, nd'.rcv = .parking k m → nd.rcv = .parking k m) → Waits nd k q := by
    intro k' hc hpc
    rcases hq with hq | hq
    · rw [hc] at hq
      split at hq
      · cases hq
      · exact Or.inl hq
    · exact Or.inr (hpc q hq)
  cases r with
  | app =>
    replace hs : AppStep cfg nd nd' out := hs
    cases hs with
    | drain k' kv replies ha hl hd ht =>
      exact Or.inl (herase (KVStore.cached_of_drained hd k) fun _ he => he)
    | take k' b val kv ha hl ht =>
      exact Or.inl (herase (KVStore.cached_of_taken ht k) fun _ he => he)
    | _ => exact Or.inl hq
  | rcv =>
    replace hs : RcvStep cfg nd nd' out := hs
    cases hs with
    | miss m k' hr hb hk' hv =>
      rcases hq with hq | hq
      · exact Or.inl (Or.inl hq)
      · cases hq
        exact Or.inr ⟨hr, hb, hv⟩
    | addReply m k' val hr hb hl =>
      rw [hr] at hrcv
      have hne : k' ≠ k := by
        rintro rfl
        exact hrcv.replyData k' val hb hk
      have hc := KVStore.cached_addToCache nd.kv k' k m
      rw [if_neg hne] at hc
      rcases hq with hq | hq
      · exact Or.inl (Or.inl (hc ▸ hq))
      · cases hq
    | park k' m hr hl =>
      rcases hq with hq | hq
      · replace hq : q ∈ (nd.kv.addToCache_ k' m).cached k := hq
        rw [KVStore.cached_addToCache] at hq
        split at hq
        · rename_i hkk
          subst hkk
          rcases List.mem_append.mp hq with hq | hq
          · exact Or.inl (Or.inl hq)
          · exact Or.inl (Or.inr (by rw [hr, List.mem_singleton.mp hq]))
        · exact Or.inl (Or.inl hq)
      · cases hq
    | drain k' kv replies hr hl hd ht =>
      exact Or.inl (herase (KVStore.cached_of_drained hd k) (by rintro _ ⟨⟩))
    | handleDone m hr hb hz hlt =>
      rcases hq with hq | hq
      · exact Or.inl (Or.inl hq)
      · replace hq : (if _ then RcvPc.tearingDown 0 else .receiving) = .parking k q := hq
        split at hq <;> cases hq
    | _ =>
      rcases hq with hq | hq
      · exact Or.inl (Or.inl hq)
      · cases hq

theorem Moved.waits {cfg : Config} {st st' : Cluster} {t : ThreadId} {nd : Node}
    {out : List Message} (hm : Moved cfg st t nd out st') (hi : Inv cfg st) {k : Key}
    {q : Message} (hq : Waits (st'.nodes k.homeNode) k q) : Waits (st.nodes k.homeNode) k q ∨
      (st.nodes k.homeNode).rcv = .handling q ∧ q.body = .waitAndGet k ∧
        (st.nodes k.homeNode).kv.lookup k = none := by
  by_cases hj : k.homeNode = t.1
  · have hself := hm.self
    rw [← hj] at hself
    rw [hself] at hq
    have hnode := hm.node
    rw [← hj] at hnode
    exact hnode.waits (hi.nodes k.homeNode) rfl hq
  · rw [hm.other hj] at hq
    exact Or.inl hq

/-- **The writer's requests stay behind its puts in a step in which it does not put.** -/
theorem Own.keep {cfg : Config} {k : Key} {w : SizeT} {ts : List ThreadId} {st st' : Cluster}
    {t : ThreadId} {nd : Node} {out : List Message} {applied : List Value}
    (h : Own cfg k w ts st) (hsess : Session cfg k w ts st applied) (hi : Inv cfg st)
    (hr : run cfg ts = some st) (hm : Moved cfg st t nd out st')
    (hp : t.2 = .app → putting (st.nodes t.1) k = []) : Own cfg k w (ts ++ [t]) st' := by
  have hval : values cfg k (ts ++ [t]) = values cfg k ts := by
    rw [hm.values hr]
    split
    · rename_i ht
      rw [hp ht, List.append_nil]
    · exact List.append_nil _
  have hout : ∀ m ∈ toNode out k.homeNode, putTo k m = none := fun m hmem =>
    List.filterMap_eq_nil_iff.mp (hm.no_put hi hp) m (mem_toNode.mp hmem).1
  -- what is handled now has no put behind it
  have hstored : ∀ {q : Message}, (st.nodes k.homeNode).rcv = .handling q → Asks w k q →
      (values cfg k ts).getLast? = (st.nodes k.homeNode).kv.lookup k := by
    intro q hrcv hask
    rw [hsess.puts, h.arriving hrcv hask, List.append_nil, hsess.stored]
  constructor
  · obtain ⟨l, hl, hin⟩ := hm.inbox k.homeNode
    rw [hin, List.pairwise_append]
    refine ⟨h.behind.sublist hl, ?_, ?_⟩
    · exact List.pairwise_of_forall_mem_list fun q _ m hmem _ => hout m hmem
    · exact fun q _ m hmem _ => hout m hmem
  · intro q hq hs
    rw [hval]
    rcases hm.waits hi hq with hq | ⟨hrcv, hb, hnone⟩
    · exact h.waiting q hq hs
    · rw [← List.getLast?_eq_none_iff, hstored hrcv ⟨Or.inr hb, hs⟩, hnone]
  · intro j m v hmem hb ht
    rw [hval]
    rcases hm.origin hi hmem with ⟨j', hold⟩ | hf
    · exact h.replies j' m v hold hb ht
    · cases hf with
      | reply k' q v' hans =>
        cases hb
        obtain ⟨hhome, hlook, hreq⟩ := hans
        rw [← hhome] at hlook hreq
        rcases hreq with ⟨hrcv, hask⟩ | ⟨hcache, hb⟩
        · rw [hstored hrcv ⟨hask, ht⟩, hlook]
        · -- a request that waits was made before the first put
          have hnil := h.waiting q (Or.inl hcache) ht
          rw [hsess.puts] at hnil
          rw [hsess.stored, (List.append_eq_nil_iff.mp hnil).1] at hlook
          cases hlook
      | put k v ha => cases hb
      | request k b ha hb' => cases b <;> cases hb
      | done ha => cases hb
      | teardown i ha => cases hb

theorem putting_ne_nil {nd : Node} {k : Key} (h : putting nd k ≠ []) :
    ∃ v, nd.app = .calling (.put k v) := by
  rw [putting] at h
  split at h
  · rename_i k' v ha
    split at h
    · rename_i hk
      exact ⟨v, hk ▸ ha⟩
    · exact absurd rfl h
  · exact absurd rfl h

theorem AppStep.of_put {cfg : Config} {nd nd' : Node} {out : List Message}
    (hs : AppStep cfg nd nd' out) {k : Key} {v : Value} (h : nd.app = .calling (.put k v))
    (k' : Key) (b : Bool) : nd'.app ≠ .awaiting k' b := by
  cases hs <;> simp_all [Node.finish]

/-- **The writer's requests stand behind its puts after every step.** -/
theorem Own.snoc {cfg : Config} {k : Key} {w : SizeT} {ts : List ThreadId} {st st' : Cluster}
    {t : ThreadId} {applied : List Value} (h : Own cfg k w ts st)
    (hsess : Session cfg k w ts st applied) (hr : run cfg ts = some st)
    (hs : step cfg st t = some st') (hk : k.homeNode ≠ w)
    (hl : (st'.nodes w).lockHeld = false) (hw : ∀ p ∈ putBy cfg k st t, p.1 = w) :
    Own cfg k w (ts ++ [t]) st' := by
  have hi : Inv cfg st := Reachable.inv ⟨ts, hr⟩
  have hreach : Reachable cfg st' := Reachable.next ⟨ts, hr⟩ hs
  rcases step_cases hs with ⟨nd, out, hm⟩ | ⟨f, he, rfl⟩
  · by_cases hp : t.2 = .app → putting (st.nodes t.1) k = []
    · exact h.keep hsess hi hr hm hp
    · -- the writer puts, and waits for nothing
      obtain ⟨hrole, hp⟩ := Classical.not_imp.mp hp
      obtain rfl := hm.writer hw hrole hp
      obtain ⟨v, ha⟩ := putting_ne_nil hp
      have hnode := hm.node
      rw [hrole] at hnode
      refine Own.of_no_token hreach.inv fun j m hmem => hreach.no_token hl hk ?_ hmem
      intro b
      rw [hm.self]
      exact AppStep.of_put hnode ha k b
  · have hval := (logs_fault hr he k).1
    refine ⟨h.behind, ?_, ?_⟩
    · rw [hval]
      exact h.waiting
    · rw [hval]
      exact h.replies

/-! ### Whole runs -/

theorem lockHeld_of_step {cfg : Config} {st st' : Cluster} {t : ThreadId}
    (hs : step cfg st t = some st') {i : SizeT} (h : (st'.nodes i).lockHeld = false) :
    (st.nodes i).lockHeld = false := by
  rcases step_cases hs with ⟨nd, out, hm⟩ | ⟨f, -, rfl⟩
  · exact (hm.lockHeld h).1
  · exact h

/-- **Both invariants hold after every run in which only the writer puts.** -/
theorem session_run {cfg : Config} {k : Key} {w : SizeT} {ts : List ThreadId} {st : Cluster}
    (hr : run cfg ts = some st) (hw : ∀ p ∈ putLog cfg k ts, p.1 = w) :
    ∃ applied, Session cfg k w ts st applied ∧
      ((st.nodes w).lockHeld = false → k.homeNode ≠ w → Own cfg k w ts st) := by
  revert hw
  refine Schedule.run_induction (P := fun ts st => (∀ p ∈ putLog cfg k ts, p.1 = w) →
    ∃ applied, Session cfg k w ts st applied ∧
      ((st.nodes w).lockHeld = false → k.homeNode ≠ w → Own cfg k w ts st)) ?_ ?_ hr
  · intro _
    refine ⟨[], session_init cfg k w, fun _ _ => ?_⟩
    exact Own.of_no_token (inv_init cfg) fun j m hm => absurd hm (not_mem_mail_init j k m)
  · intro ts st t st' hr ih hs hw
    have hlog : putLog cfg k (ts ++ [t]) = putLog cfg k ts ++ putBy cfg k st t :=
      Schedule.trace_snoc _ hr t
    rw [hlog] at hw
    obtain ⟨hold, hnew⟩ := List.forall_mem_append.mp hw
    obtain ⟨applied, hsess, hown⟩ := ih hold
    obtain ⟨applied', hsess'⟩ := hsess.snoc hr hs hnew
    refine ⟨applied', hsess', fun hl hk => ?_⟩
    exact (hown (lockHeld_of_step hs hl) hk).snoc hsess hr hs hk hl hnew

/-- What the writer reads is what it put last. -/
theorem read_own_put {cfg : Config} {k : Key} {w : SizeT} {ts : List ThreadId}
    {st st' : Cluster} {t : ThreadId} (hr : run cfg ts = some st)
    (hs : step cfg st t = some st') (hw : ∀ p ∈ putLog cfg k ts, p.1 = w) {r : Option Value}
    (hret : Returns st st' w k true r) : ∃ v, r = some v ∧ (values cfg k ts).getLast? = some v := by
  have hi : Inv cfg st := Reachable.inv ⟨ts, hr⟩
  obtain ⟨applied, hsess, hown⟩ := session_run hr hw
  obtain ⟨-, nd, out, happ, -, hres, hlock⟩ := hret.moved hs
  have hdrop : nd.results.drop (st.nodes w).results.length = [r] := by
    rw [hres]
    exact List.drop_left
  rcases happ.read (hi.nodes w) hret.inside with hnil | ⟨v, hv, hfrom⟩
  · rw [hdrop] at hnil
    cases hnil
  · rw [hdrop] at hv
    cases hv
    refine ⟨v, rfl, ?_⟩
    rcases hfrom with ⟨hk, hlook⟩ | ⟨hk, hl, -, m, hmem, hb⟩
    · rw [hsess.puts, hsess.atHome hk, List.append_nil, ← hsess.stored, hk, hlook]
    · have hl' := lockHeld_of_step hs (hlock.symm.trans hl)
      exact (hown hl' hk).replies w m v (mem_mail.mpr (Or.inr hmem)) hb
        ((hi.nodes w).cached_accepts hmem).target

/-- **Session guarantees.** Let the application of node `w` make all puts to `k` of a run.
Then each of its own `getValue(k, true)` returns what it had put last; and what the
application of another node is returned by `getValue(k, true)`, call after call, are the
values of these puts at indices that never go down. -/
theorem session_guarantees (cfg : Config) (k : Key) (w : SizeT) (ts : List ThreadId)
    (st : Cluster) (hr : run cfg ts = some st) (hw : ∀ p ∈ putLog cfg k ts, p.1 = w) :
    (∀ ts₁ t s s' r, ts₁ ++ [t] <+: ts → run cfg ts₁ = some s → step cfg s t = some s' →
      Returns s s' w k true r → ∃ v, r = some v ∧ (values cfg k ts₁).getLast? = some v) ∧
    ∀ i, i ≠ w → Ascends ((values cfg k ts).map some) (readLog cfg i k ts) := by
  constructor
  · intro ts₁ t s s' r hp hs hstep hret
    refine read_own_put hs hstep (fun p hmem => hw p ?_) hret
    obtain ⟨us, rfl⟩ := hp
    rw [putLog, List.append_assoc, Schedule.trace_append _ hs]
    exact List.mem_append_left _ hmem
  · intro i _
    obtain ⟨applied, hsess, -⟩ := session_run hr hw
    refine (hsess.reads i).mono ?_
    rw [hsess.puts]
    exact (List.prefix_append _ _).map some

/-- Node `0` puts two values under a key of node `1` and reads after each; node `2` reads
twice. -/
def sessionCfg : Config where
  numNodes := 3
  serverIndex := 0
  program i rs :=
    if i = 0 then
      match rs.length with
      | 0 => some (.put ⟨⟨[97], CStr.nulFree_a⟩, 1⟩ ⟨[7]⟩)
      | 2 => some (.put ⟨⟨[97], CStr.nulFree_a⟩, 1⟩ ⟨[8]⟩)
      | 1 | 3 => some (.getValue ⟨⟨[97], CStr.nulFree_a⟩, 1⟩ true)
      | _ => none
    else if i = 2 ∧ rs.length < 2 then some (.getValue ⟨⟨[97], CStr.nulFree_a⟩, 1⟩ true)
    else none

/-- A call of node `i` that asks node `1`, and its answer. -/
def sessionRead (i : SizeT) : List ThreadId :=
  [(i, .app), (i, .app), (1, .rcv), (1, .rcv), (1, .rcv), (i, .rcv), (i, .rcv), (i, .app)]

def sessionPut : List ThreadId := [(0, .app), (0, .app), (1, .rcv), (1, .rcv), (1, .rcv)]

def sessionSchedule : List ThreadId :=
  sessionPut ++ sessionRead 0 ++ sessionRead 2 ++ sessionPut ++ sessionRead 0 ++ sessionRead 2

example : values sessionCfg ⟨⟨[97], by decide⟩, 1⟩ sessionSchedule = [⟨[7]⟩, ⟨[8]⟩] ∧
    readLog sessionCfg 2 ⟨⟨[97], by decide⟩, 1⟩ sessionSchedule = [some ⟨[7]⟩, some ⟨[8]⟩] := by
  decide +kernel

theorem session_guarantees_three :
    (∀ ts₁ t s s' r, ts₁ ++ [t] <+: sessionSchedule → run sessionCfg ts₁ = some s →
      step sessionCfg s t = some s' → Returns s s' 0 ⟨⟨[97], by decide⟩, 1⟩ true r →
        ∃ v, r = some v ∧ (values sessionCfg ⟨⟨[97], by decide⟩, 1⟩ ts₁).getLast? = some v) ∧
    ∀ i, i ≠ 0 → Ascends ((values sessionCfg ⟨⟨[97], by decide⟩, 1⟩ sessionSchedule).map some)
      (readLog sessionCfg i ⟨⟨[97], by decide⟩, 1⟩ sessionSchedule) :=
  session_guarantees sessionCfg ⟨⟨[97], by decide⟩, 1⟩ 0 sessionSchedule
    ((run sessionCfg sessionSchedule).get (by decide +kernel)) (Option.some_get _).symm
    (by decide +kernel)

end Pseudo

end Eau2
