import Eau2.Base.Schedule
import Eau2.Network.Registration

/-!
# The order of a start

`NodeThread::run` and the two `init`s of `network/network.h`, for all nodes at once.  A
`sendMsg` puts its message at the end of the target's accept queue, `receiveMsg` takes the
first one.  The server answers the clients one after the other, and a client that has its
answer runs its application, and may send messages to clients that still wait for theirs.

* `Inv`, `inv_step`: the registrations come before the answers, and an answer comes before
  everything else, as long as nobody writes to a client that was not answered yet and the
  `int` of a loop of `server_init` does not overflow.
* `startup_order`: **then every client's first message is its `DirectoryMsg`, and no
  assertion fails.**
* `early_send`: a message to such a client is what it receives first.
* `client_aborts`: with three nodes the assertion in `client_init` can fail.
-/

namespace Eau2

open Network

inductive Place
  /-- Before `server_init` or `client_init`. -/
  | start
  /-- `client_init`: registered, and in `receiveMsg`. -/
  | waiting
  /-- `server_init`: at this number in the first loop. -/
  | collecting (k : Nat)
  /-- `server_init`: at this number in the second loop. -/
  | sending (k : Nat)
  /-- The `init` returned. -/
  | running
  /-- An assertion failed, or something undefined was done. -/
  | aborted
  deriving DecidableEq, Repr

structure BootNode where
  place : Place
  net : Network
  /-- The connections waiting in `accept`, first come first. -/
  queue : List Message

structure Boot where
  nodes : SizeT → BootNode
  /-- The process has ended in `crashIfError_`. -/
  ended : SizeT → Bool

inductive BootAct
  /-- Node `i` goes on with its `init`. -/
  | init (i : SizeT)
  /-- The application or the receiver thread of node `i` calls `sendMsg(msg)`. -/
  | send (i : SizeT) (msg : Message)
  /-- The receiver thread of node `i` takes a message. -/
  | receive (i : SizeT)
  deriving DecidableEq, Repr

/-- A message that an application or a receiver thread sends. -/
def Message.App (msg : Message) : Prop :=
  msg.kind = msg.body.kind ∧ msg.body.kind ≠ .Register ∧ msg.body.kind ≠ .Dir

instance (msg : Message) : Decidable msg.App := inferInstanceAs (Decidable (_ ∧ _ ∧ _))

namespace Boot

def store (b : Boot) (i : SizeT) (nd : BootNode) : Boot :=
  { b with nodes := Function.update b.nodes i nd }

def goto (b : Boot) (i : SizeT) (p : Place) : Boot := b.store i { b.nodes i with place := p }

def take (b : Boot) (i : SizeT) (rest : List Message) : Boot :=
  b.store i { b.nodes i with queue := rest }

def deliver (b : Boot) (msg : Message) : Boot :=
  b.store msg.target
    { b.nodes msg.target with queue := (b.nodes msg.target).queue ++ [msg] }

/-- `crashIfError_` behind the `send` of node `i`. -/
def checkSent (b : Boot) (i : SizeT) (msg : Message) : Boot :=
  if 0 ≤ sendVal msg.length then b else { b with ended := Function.update b.ended i true }

/-- `sendMsg(msg)` on node `i`, which then stands where it does in `b'`; `getInfo` asserts
that the target is in the directory. -/
def sendMsg (b : Boot) (i : SizeT) (msg : Message) (b' : Boot) : Boot :=
  if ((b.nodes i).net.dir.getInfo msg.target).isSome then (b'.deliver msg).checkSent i msg
  else b.goto i .aborted

/-- A loop goes on behind `i++`; to add to `INT_MAX` is undefined. -/
def next (loop : Nat → Place) (k : Nat) : Place := if k + 1 < 2 ^ 31 then loop (k + 1) else .aborted

/-- The message that the server received while it collects. -/
def register (b : Boot) (i : SizeT) (k : Nat) (m : Message) (rest : List Message) : Boot :=
  match m.body with
  | .register info =>
    match (b.nodes i).net.handleRegisterMsg m.sender info with
    | some net => b.store i ⟨next .collecting k, net, rest⟩
    | none => b.goto i .aborted
  | _ => b.goto i .aborted

/-- The message that a client received in `client_init`. -/
def answer (b : Boot) (i : SizeT) (m : Message) (rest : List Message) : Boot :=
  match m.kind, m.body with
  | .Dir, .dir d =>
    match (b.nodes i).net.handleDirectoryMsg d with
    | some net => b.store i ⟨.running, net, rest⟩
    | none => b.goto i .aborted
  | _, _ => b.goto i .aborted

/-- The message that a receiver thread took; what it sends in return is a step of its own. -/
def handle (b : Boot) (i : SizeT) (m : Message) (rest : List Message) : Boot :=
  match m.body with
  | .register info =>
    match (b.nodes i).net.handleRegisterMsg m.sender info with
    | some net => b.store i ⟨.running, net, rest⟩
    | none => b.goto i .aborted
  | .dir d =>
    match (b.nodes i).net.handleDirectoryMsg d with
    | some net => b.store i ⟨.running, net, rest⟩
    | none => b.goto i .aborted
  | _ => b.take i rest

end Boot

namespace Startup

variable (st : Startup)

def boot : Boot := ⟨fun _ => ⟨.start, Network.new st.serverDir, []⟩, fun _ => false⟩

def initStep (b : Boot) (i : SizeT) : Option Boot :=
  match (b.nodes i).place with
  | .start =>
    if i = st.serverIndex then some (b.goto i (.collecting 1))
    else some (b.sendMsg i (st.registerMsg i) (b.goto i .waiting))
  | .waiting =>
    match (b.nodes i).queue with
    | [] => none
    | m :: rest => some (b.answer i m rest)
  | .collecting k =>
    if k < st.numNodes.toNat then
      match (b.nodes i).queue with
      | [] => none
      | m :: rest => some (b.register i k m rest)
    else some (b.goto i (.sending 0))
  | .sending k =>
    if k < st.numNodes.toNat then
      if UInt64.ofNat k = st.serverIndex then some (b.goto i (Boot.next .sending k))
      else
        match Message.directoryMsg (b.nodes i).net.dir i (UInt64.ofNat k) with
        | some dMsg => some (b.sendMsg i dMsg (b.goto i (Boot.next .sending k)))
        | none => some (b.goto i .aborted)
    else some (b.goto i .running)
  | .running => none
  | .aborted => none

def step (b : Boot) : BootAct → Option Boot
  | .init i => if i < st.numNodes ∧ b.ended i = false then st.initStep b i else none
  | .send i msg =>
    if (i < st.numNodes ∧ b.ended i = false) ∧ (b.nodes i).place = .running ∧ msg.App ∧
        msg.target < st.numNodes then
      some (b.sendMsg i msg b)
    else none
  | .receive i =>
    if (i < st.numNodes ∧ b.ended i = false) ∧ (b.nodes i).place = .running then
      match (b.nodes i).queue with
      | [] => none
      | m :: rest => some (b.handle i m rest)
    else none

/-- The clients that the server has not answered yet. -/
def pending (b : Boot) : List SizeT :=
  match (b.nodes st.serverIndex).place with
  | .start => st.clients
  | .collecting _ => st.clients
  | .sending k => st.clients.filter (k ≤ ·.toNat)
  | _ => []

/-- An application or a receiver thread writes to a client before the server answered it. -/
def early (b : Boot) : BootAct → Bool
  | .send _ msg => msg.target ∈ st.pending b
  | _ => false

/-- A loop of `server_init` goes on behind `INT_MAX`. -/
def overflows (b : Boot) : BootAct → Bool
  | .init i =>
    match (b.nodes i).place with
    | .collecting k => k < st.numNodes.toNat ∧ ¬ k + 1 < 2 ^ 31
    | .sending k => k < st.numNodes.toNat ∧ ¬ k + 1 < 2 ^ 31
    | _ => false
  | _ => false

/-- What a start has to keep: the first message that a client can receive is its
`DirectoryMsg`, and no assertion failed, neither one on a message nor one on a target. -/
structure Ordered (b : Boot) : Prop where
  first : ∀ i ∈ st.clients, (b.nodes i).place = .start ∨ (b.nodes i).place = .waiting →
    ∀ m rest, (b.nodes i).queue = m :: rest → m.target = i ∧ ∃ d, m.kind = .Dir ∧ m.body = .dir d
  sound : ∀ i, i < st.numNodes → (b.nodes i).place ≠ .aborted

end Startup

/-! ### What a step leaves alone -/

namespace Boot

variable {b : Boot} {i j : SizeT} {nd : BootNode} {p : Place} {msg : Message}

@[simp] theorem nodes_store_self : (b.store i nd).nodes i = nd := Function.update_self _ _ _

theorem nodes_store_of_ne (h : j ≠ i) : (b.store i nd).nodes j = b.nodes j :=
  Function.update_of_ne h _ _

@[simp] theorem nodes_goto_self : (b.goto i p).nodes i = { b.nodes i with place := p } :=
  nodes_store_self

theorem nodes_goto_of_ne (h : j ≠ i) : (b.goto i p).nodes j = b.nodes j := nodes_store_of_ne h

@[simp] theorem nodes_checkSent : (b.checkSent i msg).nodes = b.nodes := by
  rw [checkSent]
  split <;> rfl

theorem nodes_deliver_target (h : msg.target = i) : (b.deliver msg).nodes i =
    { b.nodes i with queue := (b.nodes i).queue ++ [msg] } := by
  subst h
  exact nodes_store_self

theorem nodes_deliver_of_ne (h : j ≠ msg.target) : (b.deliver msg).nodes j = b.nodes j :=
  nodes_store_of_ne h

theorem place_deliver : ((b.deliver msg).nodes i).place = (b.nodes i).place := by
  by_cases h : i = msg.target
  · rw [nodes_deliver_target h.symm]
  · rw [nodes_deliver_of_ne h]

theorem sendMsg_eq {b' : Boot} {info : NodeInfo}
    (h : (b.nodes i).net.dir.getInfo msg.target = some info) :
    b.sendMsg i msg b' = (b'.deliver msg).checkSent i msg := by
  rw [sendMsg, h]
  rfl

end Boot

namespace Startup

variable {st : Startup} {b : Boot}

/-! ### Registrations -/

/-- The server collects, and has `k` entries; the registrations of `L` are in its queue. -/
structure Registering (st : Startup) (b : Boot) (k : Nat) (L : List SizeT) : Prop where
  queue : (b.nodes st.serverIndex).queue = L.map st.registerMsg
  nodup : L.Nodup
  mem : ∀ i ∈ L, i ∈ st.clients ∧ (b.nodes i).place = .waiting
  valid : (b.nodes st.serverIndex).net.dir.ips.Valid
  getInfo : ∀ i, (b.nodes st.serverIndex).net.dir.getInfo i =
    if i = st.serverIndex ∨ (i ∈ st.clients ∧ (b.nodes i).place = .waiting ∧ i ∉ L) then
      some (st.registered i) else none
  size : (b.nodes st.serverIndex).net.dir.size = k
  lt : k < 2 ^ 31
  client : ∀ i ∈ st.clients, ((b.nodes i).place = .start ∨ (b.nodes i).place = .waiting) ∧
    (b.nodes i).queue = [] ∧ (b.nodes i).net.dir = st.serverDir

theorem ne_server {i : SizeT} (h : i ∈ st.clients) : i ≠ st.serverIndex := (st.mem_clients.mp h).2

theorem registering_boot (st : Startup) : st.Registering st.boot 1 [] where
  queue := rfl
  nodup := List.nodup_nil
  mem i hi := absurd hi List.not_mem_nil
  valid := Directory.valid_new.put _ _
  getInfo i := by
    show st.serverDir.getInfo i = _
    rw [st.getInfo_serverDir]
    by_cases hi : st.serverIndex = i
    · subst hi
      rw [if_pos rfl, if_pos (Or.inl rfl)]
      rfl
    · rw [if_neg hi, if_neg]
      rintro (he | ⟨-, hw, -⟩)
      · exact hi he.symm
      · cases hw
  size := by
    have hnone : Directory.new.getInfo st.serverIndex = none := Map.get_new 4 _
    exact Directory.size_addInfo hnone _
  lt := by decide
  client i _ := ⟨Or.inl rfl, rfl, rfl⟩

theorem Registering.register {k : Nat} {L : List SizeT} (h : st.Registering b k L) {i : SizeT}
    (hi : i ∈ st.clients) (hp : (b.nodes i).place = .start) :
    st.Registering (b.sendMsg i (st.registerMsg i) (b.goto i .waiting)) k (L ++ [i]) ∧
      ((b.sendMsg i (st.registerMsg i) (b.goto i .waiting)).nodes st.serverIndex).place =
        (b.nodes st.serverIndex).place := by
  have hne := ne_server hi
  have hdir : (b.nodes i).net.dir.getInfo (st.registerMsg i).target =
      some (st.listensOn st.serverIndex) := by
    rw [(h.client i hi).2.2]
    exact (st.getInfo_serverDir _).trans (if_pos rfl)
  rw [Boot.sendMsg_eq hdir]
  generalize hb : ((b.goto i .waiting).deliver (st.registerMsg i)).checkSent i
    (st.registerMsg i) = b'
  have hnodes : b'.nodes = ((b.goto i .waiting).deliver (st.registerMsg i)).nodes := by
    rw [← hb, Boot.nodes_checkSent]
  have hserver : b'.nodes st.serverIndex = { b.nodes st.serverIndex with
      queue := (b.nodes st.serverIndex).queue ++ [st.registerMsg i] } := by
    have htarget : (st.registerMsg i).target = st.serverIndex := rfl
    rw [hnodes, Boot.nodes_deliver_target htarget, Boot.nodes_goto_of_ne hne.symm]
  have hself : b'.nodes i = { b.nodes i with place := .waiting } := by
    rw [hnodes, Boot.nodes_deliver_of_ne hne, Boot.nodes_goto_self]
  have hother : ∀ j, j ≠ st.serverIndex → j ≠ i → b'.nodes j = b.nodes j := by
    intro j hjs hji
    rw [hnodes, Boot.nodes_deliver_of_ne hjs, Boot.nodes_goto_of_ne hji]
  have hnew : i ∉ L := by
    intro hm
    have hw := (h.mem i hm).2
    rw [hp] at hw
    cases hw
  refine ⟨?_, by rw [hserver]⟩
  constructor
  · rw [hserver, h.queue, List.map_append]
    rfl
  · exact List.nodup_append.mpr ⟨h.nodup, List.nodup_singleton i, by
      intro a ha c hc he
      rw [List.mem_singleton.mp hc] at he
      exact hnew (he ▸ ha)⟩
  · intro j hj
    rcases List.mem_append.mp hj with hj | hj
    · have hji : j ≠ i := fun he => hnew (he ▸ hj)
      obtain ⟨hc, hw⟩ := h.mem j hj
      rw [hother j (ne_server hc) hji]
      exact ⟨hc, hw⟩
    · rw [List.mem_singleton.mp hj, hself]
      exact ⟨hi, rfl⟩
  · rw [hserver]
    exact h.valid
  · intro j
    rw [hserver]
    refine (h.getInfo j).trans ?_
    by_cases hji : j = i
    · subst hji
      rw [hself, if_neg, if_neg]
      · rintro (he | ⟨-, -, hn⟩)
        · exact hne he
        · exact hn (List.mem_append_right L List.mem_cons_self)
      · rintro (he | ⟨-, hw, -⟩)
        · exact hne he
        · rw [hp] at hw
          cases hw
    · by_cases hjs : j = st.serverIndex
      · rw [if_pos (Or.inl hjs), if_pos (Or.inl hjs)]
      · rw [hother j hjs hji]
        simp only [List.mem_append, List.mem_singleton, hji, or_false]
  · rw [hserver]
    exact h.size
  · exact h.lt
  · intro j hj
    by_cases hji : j = i
    · subst hji
      rw [hself]
      exact ⟨Or.inr rfl, (h.client j hj).2⟩
    · rw [hother j (ne_server hj) hji]
      exact h.client j hj

theorem Registering.goto {k : Nat} {L : List SizeT} (h : st.Registering b k L) (p : Place) :
    st.Registering (b.goto st.serverIndex p) k L := by
  have hother : ∀ j ∈ st.clients, (b.goto st.serverIndex p).nodes j = b.nodes j :=
    fun j hj => Boot.nodes_goto_of_ne (ne_server hj)
  constructor
  · rw [Boot.nodes_goto_self]
    exact h.queue
  · exact h.nodup
  · intro j hj
    obtain ⟨hc, hw⟩ := h.mem j hj
    rw [hother j hc]
    exact ⟨hc, hw⟩
  · rw [Boot.nodes_goto_self]
    exact h.valid
  · intro j
    rw [Boot.nodes_goto_self]
    refine (h.getInfo j).trans ?_
    by_cases hj : j ∈ st.clients
    · rw [hother j hj]
    · simp only [hj, false_and]
  · rw [Boot.nodes_goto_self]
    exact h.size
  · exact h.lt
  · intro j hj
    rw [hother j hj]
    exact h.client j hj

/-- The server takes a registration: the assertion holds, and there is one entry more. -/
theorem Registering.collect {k : Nat} {L : List SizeT} (h : st.Registering b k L)
    (hlt : k + 1 < 2 ^ 31) {m : Message} {rest : List Message}
    (hq : (b.nodes st.serverIndex).queue = m :: rest) : ∃ L',
      st.Registering (b.register st.serverIndex k m rest) (k + 1) L' ∧
        ((b.register st.serverIndex k m rest).nodes st.serverIndex).place =
          .collecting (k + 1) := by
  cases L with
  | nil =>
    rw [h.queue] at hq
    cases hq
  | cons i L =>
    rw [h.queue, List.map_cons] at hq
    obtain ⟨hm, hrest⟩ := List.cons.inj hq
    subst hm
    obtain ⟨hiL, hnodup⟩ := List.nodup_cons.mp h.nodup
    obtain ⟨hi, hw⟩ := h.mem i List.mem_cons_self
    have hnone : (b.nodes st.serverIndex).net.dir.getInfo i = none := by
      rw [h.getInfo, if_neg]
      rintro (he | ⟨-, -, hn⟩)
      · exact ne_server hi he
      · exact hn List.mem_cons_self
    have hsize := Directory.size_addInfo hnone (st.registered i)
    have heq : b.register st.serverIndex k (st.registerMsg i) rest =
        b.store st.serverIndex ⟨.collecting (k + 1), { (b.nodes st.serverIndex).net with
          dir := (b.nodes st.serverIndex).net.dir.addInfo i (st.registered i) }, rest⟩ := by
      have hreg : (b.nodes st.serverIndex).net.handleRegisterMsg i (st.registered i) =
          some { (b.nodes st.serverIndex).net with
            dir := (b.nodes st.serverIndex).net.dir.addInfo i (st.registered i) } := if_pos hsize
      show (match (b.nodes st.serverIndex).net.handleRegisterMsg i (st.registered i) with
        | some net => b.store st.serverIndex ⟨Boot.next .collecting k, net, rest⟩
        | none => b.goto st.serverIndex .aborted) = _
      rw [hreg, Boot.next, if_pos hlt]
    have hother : ∀ {nd : BootNode}, ∀ j ∈ st.clients,
        (b.store st.serverIndex nd).nodes j = b.nodes j :=
      fun j hj => Boot.nodes_store_of_ne (ne_server hj)
    rw [heq]
    refine ⟨L, ?_, by rw [Boot.nodes_store_self]⟩
    constructor
    · rw [Boot.nodes_store_self, hrest]
    · exact hnodup
    · intro j hj
      obtain ⟨hc, hwj⟩ := h.mem j (List.mem_cons_of_mem i hj)
      rw [hother j hc]
      exact ⟨hc, hwj⟩
    · rw [Boot.nodes_store_self]
      exact h.valid.put i (st.registered i)
    · intro j
      rw [Boot.nodes_store_self]
      refine (Directory.getInfo_addInfo h.valid i (st.registered i) j).trans ?_
      by_cases hij : i = j
      · subst hij
        rw [if_pos rfl, if_pos]
        rw [hother i hi]
        exact Or.inr ⟨hi, hw, hiL⟩
      · rw [if_neg hij, h.getInfo]
        by_cases hj : j ∈ st.clients
        · rw [hother j hj]
          simp only [List.mem_cons, Ne.symm hij, false_or]
        · simp only [hj, false_and]
    · rw [Boot.nodes_store_self, ← h.size]
      exact hsize
    · exact hlt
    · intro j hj
      rw [hother j hj]
      exact h.client j hj

/-! ### Answers -/

/-- A client that the server has not answered: nobody wrote to it. -/
structure Unanswered (st : Startup) (nd : BootNode) : Prop where
  place : nd.place = .waiting
  queue : nd.queue = []
  dir : nd.net.dir = st.serverDir

/-- A client that the server has answered: the answer is the first thing it receives, or it
has received it. -/
inductive Answered (st : Startup) (i : SizeT) (nd : BootNode) : Prop
  | waiting {d : Directory} {rest : List Message} : nd.place = .waiting →
    nd.net.dir = st.serverDir → st.Knows d → nd.queue = st.directoryMsg d i :: rest →
    (∀ m ∈ rest, m.App) → Answered st i nd
  | running : nd.place = .running → st.Knows nd.net.dir → (∀ m ∈ nd.queue, m.App) →
    Answered st i nd

/-- The server knows all, and has yet to answer the clients from node `k` on. -/
structure Answering (st : Startup) (b : Boot) (k : Nat) : Prop where
  small : st.numNodes.toNat < 2 ^ 31
  knows : st.Knows (b.nodes st.serverIndex).net.dir
  queue : ∀ m ∈ (b.nodes st.serverIndex).queue, m.App
  unanswered : ∀ i ∈ st.clients, k ≤ i.toNat → st.Unanswered (b.nodes i)
  answered : ∀ i ∈ st.clients, i.toNat < k → st.Answered i (b.nodes i)

theorem Registering.complete {k : Nat} {L : List SizeT} (h : st.Registering b k L)
    (hk : ¬ k < st.numNodes.toNat) :
    L = [] ∧ st.Knows (b.nodes st.serverIndex).net.dir ∧
      ∀ i ∈ st.clients, (b.nodes i).place = .waiting := by
  have hlt : ∀ i, ((b.nodes st.serverIndex).net.dir.getInfo i).isSome → i < st.numNodes := by
    intro i hi
    rw [h.getInfo] at hi
    split at hi
    · rename_i hc
      rcases hc with rfl | ⟨hc, -⟩
      · exact st.server_lt
      · exact (st.mem_clients.mp hc).1
    · cases hi
  -- as many entries as nodes, so every node has one
  have hall : ∀ i, i < st.numNodes → ((b.nodes st.serverIndex).net.dir.getInfo i).isSome := by
    have hsize := Directory.size_eq_of_mem h.valid
      ((nodup_nodesBelow st.numNodes).filter fun i =>
        ((b.nodes st.serverIndex).net.dir.getInfo i).isSome) (by
      intro i
      rw [List.mem_filter, mem_nodesBelow]
      exact ⟨fun hi => ⟨hlt i hi, hi⟩, fun hi => hi.2⟩)
    have hle := List.length_filter_le (fun i =>
      ((b.nodes st.serverIndex).net.dir.getInfo i).isSome) (nodesBelow st.numNodes)
    rw [← hsize, h.size] at hle
    have hlen : ((nodesBelow st.numNodes).filter fun i =>
        ((b.nodes st.serverIndex).net.dir.getInfo i).isSome).length =
          (nodesBelow st.numNodes).length := by
      rw [length_nodesBelow] at hle ⊢
      rw [← hsize, h.size]
      omega
    intro i hi
    exact List.length_filter_eq_length_iff.mp hlen i (mem_nodesBelow.mpr hi)
  have hclient : ∀ i ∈ st.clients, (b.nodes i).place = .waiting ∧ i ∉ L := by
    intro i hi
    have hsome := hall i (st.mem_clients.mp hi).1
    rw [h.getInfo] at hsome
    split at hsome
    · rename_i hc
      rcases hc with he | ⟨-, hw, hn⟩
      · exact absurd he (ne_server hi)
      · exact ⟨hw, hn⟩
    · cases hsome
  refine ⟨?_, ⟨h.valid, fun i => ?_⟩, fun i hi => (hclient i hi).1⟩
  · refine List.eq_nil_iff_forall_not_mem.mpr fun i hi => ?_
    exact (hclient i (h.mem i hi).1).2 hi
  · by_cases hi : i < st.numNodes
    · have hsome := hall i hi
      rw [h.getInfo] at hsome ⊢
      split at hsome
      · rw [if_pos (by assumption), if_pos hi]
      · cases hsome
    · rw [if_neg hi]
      exact Option.not_isSome_iff_eq_none.mp fun hs => hi (hlt i hs)

theorem Registering.answering {k : Nat} {L : List SizeT} (h : st.Registering b k L)
    (hk : ¬ k < st.numNodes.toNat) :
    st.Answering (b.goto st.serverIndex (.sending 0)) 0 := by
  obtain ⟨rfl, hknows, hwaiting⟩ := h.complete hk
  have hlt := h.lt
  have hself : (b.goto st.serverIndex (.sending 0)).nodes st.serverIndex =
      { b.nodes st.serverIndex with place := .sending 0 } := Boot.nodes_goto_self
  constructor
  · omega
  · rwa [hself]
  · intro m hm
    rw [hself] at hm
    have hm' : m ∈ (b.nodes st.serverIndex).queue := hm
    rw [h.queue] at hm'
    cases hm'
  · intro i hi _
    rw [Boot.nodes_goto_of_ne (ne_server hi)]
    exact ⟨hwaiting i hi, (h.client i hi).2.1, (h.client i hi).2.2⟩
  · intro i _ hn
    exact absurd hn (Nat.not_lt_zero _)

theorem Answering.server_moves {k k' : Nat} (h : st.Answering b k) {b' : Boot}
    (hother : ∀ j ∈ st.clients, b'.nodes j = b.nodes j)
    (hnet : (b'.nodes st.serverIndex).net = (b.nodes st.serverIndex).net)
    (hqueue : ∀ m ∈ (b'.nodes st.serverIndex).queue, m.App)
    (hmem : ∀ i ∈ st.clients, k ≤ i.toNat ↔ k' ≤ i.toNat) : st.Answering b' k' := by
  constructor
  · exact h.small
  · rw [hnet]
    exact h.knows
  · exact hqueue
  · intro i hi hk'
    rw [hother i hi]
    exact h.unanswered i hi ((hmem i hi).mpr hk')
  · intro i hi hk'
    rw [hother i hi]
    exact h.answered i hi (Nat.lt_of_not_le fun hk => Nat.not_le.mpr hk' ((hmem i hi).mp hk))

theorem Answering.clients_move {k : Nat} (h : st.Answering b k) {b' : Boot}
    (hserver : b'.nodes st.serverIndex = b.nodes st.serverIndex)
    (hun : ∀ i ∈ st.clients, k ≤ i.toNat → st.Unanswered (b'.nodes i))
    (han : ∀ i ∈ st.clients, i.toNat < k → st.Answered i (b'.nodes i)) :
    st.Answering b' k := by
  constructor
  · exact h.small
  · rw [hserver]
    exact h.knows
  · rw [hserver]
    exact h.queue
  · exact hun
  · exact han

theorem Answering.goto {k k' : Nat} (h : st.Answering b k) (p : Place)
    (hmem : ∀ i ∈ st.clients, k ≤ i.toNat ↔ k' ≤ i.toNat) :
    st.Answering (b.goto st.serverIndex p) k' := by
  have hother : ∀ j ∈ st.clients, (b.goto st.serverIndex p).nodes j = b.nodes j :=
    fun j hj => Boot.nodes_goto_of_ne (ne_server hj)
  refine h.server_moves hother ?_ ?_ hmem
  · rw [Boot.nodes_goto_self]
  · rw [Boot.nodes_goto_self]
    exact h.queue

theorem toNat_ofNat_lt {k : Nat} (hk : k < st.numNodes.toNat) : (UInt64.ofNat k).toNat = k := by
  have hmax := st.numNodes.toNat_lt
  exact UInt64.toNat_ofNat_of_lt' (show k < 2 ^ 64 by omega)

theorem Answering.answer {k : Nat} (h : st.Answering b k) (hk : k < st.numNodes.toNat)
    (hne : UInt64.ofNat k ≠ st.serverIndex) : ∃ dMsg,
      Message.directoryMsg (b.nodes st.serverIndex).net.dir st.serverIndex (UInt64.ofNat k) =
        some dMsg ∧
      st.Answering (b.sendMsg st.serverIndex dMsg
        (b.goto st.serverIndex (Boot.next .sending k))) (k + 1) ∧
      ((b.sendMsg st.serverIndex dMsg (b.goto st.serverIndex (Boot.next .sending k))).nodes
        st.serverIndex).place = .sending (k + 1) := by
  have hnum := toNat_ofNat_lt hk
  have hsmall := h.small
  generalize UInt64.ofNat k = j at hne hnum
  have hlt : j < st.numNodes := UInt64.lt_iff_toNat_lt.mpr (by rwa [hnum])
  have hnext : Boot.next .sending k = .sending (k + 1) := if_pos (by omega)
  obtain ⟨d', -, hknows', hmsg⟩ := h.knows.directoryMsg h.small
  refine ⟨st.directoryMsg d' j, (hmsg j).1, ?_⟩
  have hinfo : (b.nodes st.serverIndex).net.dir.getInfo (st.directoryMsg d' j).target =
      some (st.registered j) := (h.knows.getInfo j).trans (if_pos hlt)
  have htarget : (st.directoryMsg d' j).target = j := rfl
  rw [Boot.sendMsg_eq hinfo, hnext]
  generalize hb : ((b.goto st.serverIndex (.sending (k + 1))).deliver
    (st.directoryMsg d' j)).checkSent st.serverIndex (st.directoryMsg d' j) = b'
  have hnodes : b'.nodes =
      ((b.goto st.serverIndex (.sending (k + 1))).deliver (st.directoryMsg d' j)).nodes := by
    rw [← hb, Boot.nodes_checkSent]
  have hserver : b'.nodes st.serverIndex =
      { b.nodes st.serverIndex with place := .sending (k + 1) } := by
    rw [hnodes, Boot.nodes_deliver_of_ne (by rw [htarget]; exact hne.symm), Boot.nodes_goto_self]
  have hself : b'.nodes j =
      { b.nodes j with queue := (b.nodes j).queue ++ [st.directoryMsg d' j] } := by
    rw [hnodes, Boot.nodes_deliver_target htarget, Boot.nodes_goto_of_ne hne]
  have hother : ∀ i ∈ st.clients, i ≠ j → b'.nodes i = b.nodes i := by
    intro i hi hij
    rw [hnodes, Boot.nodes_deliver_of_ne (by rw [htarget]; exact hij),
      Boot.nodes_goto_of_ne (ne_server hi)]
  refine ⟨?_, by rw [hserver]⟩
  constructor
  · exact h.small
  · rw [hserver]
    exact h.knows
  · rw [hserver]
    exact h.queue
  · intro i hi hm
    rw [hother i hi fun he => by rw [he, hnum] at hm; omega]
    exact h.unanswered i hi (by omega)
  · intro i hi hn
    by_cases hij : i = j
    · subst hij
      obtain ⟨hp, hq, hd⟩ := h.unanswered i hi (Nat.le_of_eq hnum.symm)
      rw [hself, hq]
      have hrest : ∀ m ∈ ([] : List Message), m.App := by simp
      exact .waiting hp hd hknows' rfl hrest
    · rw [hother i hi hij]
      refine h.answered i hi (Nat.lt_of_le_of_ne (Nat.le_of_lt_succ hn) fun he => hij ?_)
      exact UInt64.toNat_inj.mp (he.trans hnum.symm)

/-! ### Clients -/

theorem Answering.store_client {k : Nat} (h : st.Answering b k) {i : SizeT}
    (hi : i ∈ st.clients) (hn : i.toNat < k) {nd : BootNode} (hnd : st.Answered i nd) :
    st.Answering (b.store i nd) k := by
  have hserver : (b.store i nd).nodes st.serverIndex = b.nodes st.serverIndex :=
    Boot.nodes_store_of_ne (ne_server hi).symm
  refine h.clients_move hserver ?_ ?_
  · intro j hj hm
    have hji : j ≠ i := by
      rintro rfl
      omega
    rw [Boot.nodes_store_of_ne hji]
    exact h.unanswered j hj hm
  · intro j hj hm
    by_cases hji : j = i
    · subst hji
      rw [Boot.nodes_store_self]
      exact hnd
    · rw [Boot.nodes_store_of_ne hji]
      exact h.answered j hj hm

theorem Answered.deliver {i : SizeT} {nd : BootNode} (h : st.Answered i nd) {msg : Message}
    (hm : msg.App) : st.Answered i { nd with queue := nd.queue ++ [msg] } := by
  have happ : ∀ {ms : List Message}, (∀ m ∈ ms, m.App) → ∀ m ∈ ms ++ [msg], m.App :=
    fun hms => List.forall_mem_append.mpr ⟨hms, List.forall_mem_singleton.mpr hm⟩
  cases h with
  | @waiting d rest hp hd hk hq hrest =>
    refine .waiting hp hd hk ?_ (happ hrest)
    show nd.queue ++ [msg] = _
    rw [hq]
    rfl
  | running hp hk hq => exact .running hp hk (happ hq)

/-- **A message of an application reaches the server or an answered client.** -/
theorem Answering.deliver {k : Nat} (h : st.Answering b k) {i : SizeT} {msg : Message}
    (hm : msg.App) (ht : msg.target ∈ st.clients → msg.target.toNat < k) :
    st.Answering ((b.deliver msg).checkSent i msg) k := by
  generalize hb : (b.deliver msg).checkSent i msg = b'
  have hnodes : b'.nodes = (b.deliver msg).nodes := by rw [← hb, Boot.nodes_checkSent]
  by_cases hs : msg.target = st.serverIndex
  · have hserver := Boot.nodes_deliver_target (b := b) hs
    have hother : ∀ j ∈ st.clients, b'.nodes j = b.nodes j := fun j hj => by
      rw [hnodes]
      exact Boot.nodes_deliver_of_ne (by rw [hs]; exact ne_server hj)
    refine h.server_moves hother ?_ ?_ fun _ _ => Iff.rfl
    · rw [hnodes, hserver]
    · rw [hnodes, hserver]
      exact List.forall_mem_append.mpr ⟨h.queue, List.forall_mem_singleton.mpr hm⟩
  · have hserver : b'.nodes st.serverIndex = b.nodes st.serverIndex := by
      rw [hnodes]
      exact Boot.nodes_deliver_of_ne (Ne.symm hs)
    refine h.clients_move hserver ?_ ?_
    · intro j hj hk
      have hne : j ≠ msg.target := by
        rintro rfl
        exact Nat.not_lt.mpr hk (ht hj)
      rw [hnodes, Boot.nodes_deliver_of_ne hne]
      exact h.unanswered j hj hk
    · intro j hj hk
      rw [hnodes]
      by_cases he : j = msg.target
      · rw [Boot.nodes_deliver_target he.symm]
        exact (h.answered j hj hk).deliver hm
      · rw [Boot.nodes_deliver_of_ne he]
        exact h.answered j hj hk

/-- A client receives its answer: the assertion holds. -/
theorem answer_spec (hn : st.numNodes.toNat < 2 ^ 31) {i : SizeT} {d : Directory}
    {rest : List Message} (hdir : (b.nodes i).net.dir = st.serverDir) (hk : st.Knows d)
    (hrest : ∀ m ∈ rest, m.App) :
    ∃ nd, b.answer i (st.directoryMsg d i) rest = b.store i nd ∧ st.Answered i nd := by
  obtain ⟨d', e, hk'⟩ := hk.mergeIn hn
  refine ⟨⟨.running, { (b.nodes i).net with dir := d' }, rest⟩, ?_, .running rfl hk' hrest⟩
  have hmerge : (b.nodes i).net.handleDirectoryMsg d =
      some { (b.nodes i).net with dir := d' } := by
    rw [handleDirectoryMsg, hdir, e]
    rfl
  show (match (b.nodes i).net.handleDirectoryMsg d with
    | some net => b.store i ⟨.running, net, rest⟩
    | none => b.goto i .aborted) = _
  rw [hmerge]

/-- A receiver thread keeps nothing of a message but its place in the queue. -/
theorem handle_app {i : SizeT} {m : Message} (hm : m.App) (rest : List Message) :
    b.handle i m rest = b.take i rest := by
  obtain ⟨-, hr, hd⟩ := hm
  rw [Boot.handle]
  cases hb : m.body with
  | register info => exact absurd (by rw [hb]; rfl) hr
  | dir d => exact absurd (by rw [hb]; rfl) hd
  | _ => rfl

/-! ### The invariant -/

def Inv (st : Startup) (b : Boot) : Prop :=
  match (b.nodes st.serverIndex).place with
  | .start => ∃ L, st.Registering b 1 L
  | .collecting k => ∃ L, st.Registering b k L
  | .sending k => st.Answering b k
  | .running => st.Answering b st.numNodes.toNat
  | .waiting => False
  | .aborted => False

theorem Inv.of_answering {k : Nat} (h : st.Answering b k)
    (hp : (b.nodes st.serverIndex).place = .sending k ∨
      (b.nodes st.serverIndex).place = .running ∧ k = st.numNodes.toNat) : st.Inv b := by
  unfold Inv
  rcases hp with hp | ⟨hp, rfl⟩
  · rwa [hp]
  · rwa [hp]

theorem inv_boot (st : Startup) : st.Inv st.boot := ⟨[], registering_boot st⟩

theorem Inv.cases (h : st.Inv b) :
    (∃ k L, st.Registering b k L ∧ ((b.nodes st.serverIndex).place = .start ∧ k = 1 ∨
        (b.nodes st.serverIndex).place = .collecting k)) ∨
      ∃ k, st.Answering b k ∧ ((b.nodes st.serverIndex).place = .sending k ∨
        (b.nodes st.serverIndex).place = .running ∧ k = st.numNodes.toNat) := by
  unfold Inv at h
  split at h
  · rename_i hp
    obtain ⟨L, hL⟩ := h
    exact Or.inl ⟨_, L, hL, Or.inl ⟨hp, rfl⟩⟩
  · rename_i k hp
    obtain ⟨L, hL⟩ := h
    exact Or.inl ⟨k, L, hL, Or.inr hp⟩
  · rename_i k hp
    exact Or.inr ⟨k, h, Or.inl hp⟩
  · rename_i hp
    exact Or.inr ⟨_, h, Or.inr ⟨hp, rfl⟩⟩
  · exact h.elim
  · exact h.elim

theorem Inv.of_registering {k : Nat} {L : List SizeT} (h : st.Registering b k L)
    (hp : (b.nodes st.serverIndex).place = .start ∧ k = 1 ∨
      (b.nodes st.serverIndex).place = .collecting k) : st.Inv b := by
  unfold Inv
  rcases hp with ⟨hp, rfl⟩ | hp
  · rw [hp]
    exact ⟨L, h⟩
  · rw [hp]
    exact ⟨L, h⟩

theorem inv_init_server {b' : Boot} (h : st.Inv b)
    (ho : st.overflows b (.init st.serverIndex) = false)
    (hs : st.initStep b st.serverIndex = some b') : st.Inv b' := by
  unfold initStep at hs
  simp only [overflows] at ho
  rcases h.cases with ⟨k, L, hreg, ⟨hp, rfl⟩ | hp⟩ | ⟨k, hans, hp | ⟨hp, rfl⟩⟩
  · rw [hp] at hs
    cases (if_pos rfl).symm.trans hs
    exact .of_registering (hreg.goto _) (Or.inr (by rw [Boot.nodes_goto_self]))
  · rw [hp] at hs ho
    dsimp only at hs
    split at hs
    · rename_i hk
      have hlt : k + 1 < 2 ^ 31 := by
        by_contra hle
        exact of_decide_eq_false ho ⟨hk, hle⟩
      split at hs
      · cases hs
      · rename_i m rest hq
        cases hs
        obtain ⟨L', hreg', hp'⟩ := hreg.collect hlt hq
        exact .of_registering hreg' (Or.inr hp')
    · rename_i hk
      cases hs
      exact .of_answering (hreg.answering hk) (Or.inl (by rw [Boot.nodes_goto_self]))
  · rw [hp] at hs
    have hsmall := hans.small
    dsimp only at hs
    split at hs
    · rename_i hk
      have hnext : Boot.next .sending k = .sending (k + 1) := if_pos (by omega)
      by_cases hj : UInt64.ofNat k = st.serverIndex
      · rw [if_pos hj, hnext] at hs
        cases hs
        have hmem : ∀ i ∈ st.clients, k ≤ i.toNat ↔ k + 1 ≤ i.toNat := by
          intro i hi
          have hne : i.toNat ≠ k := by
            rintro rfl
            exact ne_server hi (by rw [← hj, UInt64.ofNat_toNat])
          omega
        exact .of_answering (hans.goto _ hmem) (Or.inl (by rw [Boot.nodes_goto_self]))
      · obtain ⟨dMsg, he, hans', hp'⟩ := hans.answer hk hj
        rw [if_neg hj, he] at hs
        cases hs
        exact .of_answering hans' (Or.inl hp')
    · rename_i hk
      cases hs
      have hmem : ∀ i ∈ st.clients, k ≤ i.toNat ↔ st.numNodes.toNat ≤ i.toNat := by
        intro i hi
        have hlt := UInt64.lt_iff_toNat_lt.mp (st.mem_clients.mp hi).1
        omega
      exact .of_answering (hans.goto .running hmem) (Or.inr ⟨by rw [Boot.nodes_goto_self], rfl⟩)
  · rw [hp] at hs
    cases hs

theorem inv_init_client {b' : Boot} (h : st.Inv b) {i : SizeT} (hi : i ∈ st.clients)
    (hs : st.initStep b i = some b') : st.Inv b' := by
  unfold initStep at hs
  rcases h.cases with ⟨k, L, hreg, hp⟩ | ⟨k, hans, hp⟩
  · obtain ⟨hplace, hq, -⟩ := hreg.client i hi
    rcases hplace with hstart | hwait
    · rw [hstart] at hs
      cases (if_neg (ne_server hi)).symm.trans hs
      obtain ⟨hreg', hp'⟩ := hreg.register hi hstart
      exact .of_registering hreg' (by rwa [hp'])
    · rw [hwait, hq] at hs
      cases hs
  · by_cases hk : k ≤ i.toNat
    · obtain ⟨hwait, hq, -⟩ := hans.unanswered i hi hk
      rw [hwait, hq] at hs
      cases hs
    · have hlt := Nat.lt_of_not_le hk
      cases hans.answered i hi hlt with
      | @waiting d rest hwait hdir hk hq hrest =>
        obtain ⟨nd, he, hnd⟩ := answer_spec hans.small hdir hk hrest
        rw [hwait, hq] at hs
        obtain rfl := Option.some.inj hs
        rw [he]
        exact .of_answering (hans.store_client hi hlt hnd)
          (by rwa [Boot.nodes_store_of_ne (ne_server hi).symm])
      | running hrun _ _ =>
        rw [hrun] at hs
        cases hs

/-- A node that runs knows every node, and what waits for it are messages of applications. -/
theorem Inv.running (h : st.Inv b) {i : SizeT} (hi : i < st.numNodes)
    (hrun : (b.nodes i).place = .running) : ∃ k, st.Answering b k ∧
      ((b.nodes st.serverIndex).place = .sending k ∨
        (b.nodes st.serverIndex).place = .running ∧ k = st.numNodes.toNat) ∧
      st.Knows (b.nodes i).net.dir ∧ (∀ m ∈ (b.nodes i).queue, m.App) ∧
      (i ∈ st.clients → i.toNat < k) := by
  by_cases his : i = st.serverIndex
  · subst his
    rcases h.cases with ⟨k, L, -, ⟨hp, -⟩ | hp⟩ | ⟨k, hans, hp⟩
    · rw [hp] at hrun
      cases hrun
    · rw [hp] at hrun
      cases hrun
    · exact ⟨k, hans, hp, hans.knows, hans.queue, fun hc => absurd rfl (ne_server hc)⟩
  · have hc : i ∈ st.clients := st.mem_clients.mpr ⟨hi, his⟩
    rcases h.cases with ⟨k, L, hreg, -⟩ | ⟨k, hans, hp⟩
    · rcases (hreg.client i hc).1 with hp | hp
      · rw [hp] at hrun
        cases hrun
      · rw [hp] at hrun
        cases hrun
    · have hn : i.toNat < k := by
        refine Nat.lt_of_not_le fun hm => ?_
        rw [(hans.unanswered i hc hm).place] at hrun
        cases hrun
      cases hans.answered i hc hn with
      | waiting hw _ _ _ _ =>
        rw [hw] at hrun
        cases hrun
      | running _ hk hq => exact ⟨k, hans, hp, hk, hq, fun _ => hn⟩

theorem Answering.take_server {k : Nat} (h : st.Answering b k) {rest : List Message}
    (hrest : ∀ m ∈ rest, m.App) : st.Answering (b.take st.serverIndex rest) k := by
  have hother : ∀ j ∈ st.clients, (b.take st.serverIndex rest).nodes j = b.nodes j :=
    fun j hj => Boot.nodes_store_of_ne (ne_server hj)
  have hserver : (b.take st.serverIndex rest).nodes st.serverIndex =
      { b.nodes st.serverIndex with queue := rest } := Boot.nodes_store_self
  refine h.server_moves hother ?_ ?_ fun _ _ => Iff.rfl
  · rw [hserver]
  · rw [hserver]
    exact hrest

theorem Inv.send {b' : Boot} (h : st.Inv b) {i : SizeT} {msg : Message}
    (hs : st.step b (.send i msg) = some b') : ∃ k, st.Answering b k ∧
      ((b.nodes st.serverIndex).place = .sending k ∨
        (b.nodes st.serverIndex).place = .running ∧ k = st.numNodes.toNat) ∧
      msg.App ∧ msg.target < st.numNodes ∧ b' = (b.deliver msg).checkSent i msg := by
  obtain ⟨⟨⟨hi, -⟩, hrun, happ, htarget⟩, he⟩ := Option.ite_none_right_eq_some.mp hs
  obtain ⟨k, hans, hp, hk, -, -⟩ := h.running hi hrun
  have hinfo : (b.nodes i).net.dir.getInfo msg.target = some (st.registered msg.target) :=
    (hk.getInfo _).trans (if_pos htarget)
  rw [Boot.sendMsg_eq hinfo] at he
  cases he
  exact ⟨k, hans, hp, happ, htarget, rfl⟩

theorem mem_pending {k : Nat} (hp : (b.nodes st.serverIndex).place = .sending k ∨
    (b.nodes st.serverIndex).place = .running ∧ k = st.numNodes.toNat) {i : SizeT} :
    i ∈ st.pending b ↔ i ∈ st.clients ∧ k ≤ i.toNat := by
  unfold pending
  rcases hp with hp | ⟨hp, rfl⟩
  · rw [hp]
    exact List.mem_filter.trans (and_congr_right fun _ => decide_eq_true_iff)
  · rw [hp]
    refine iff_of_false List.not_mem_nil fun hc => ?_
    exact Nat.not_le.mpr (UInt64.lt_iff_toNat_lt.mp (st.mem_clients.mp hc.1).1) hc.2

/-- A message of an application is delivered; to whom it may go is `early`. -/
theorem inv_send {b' : Boot} (h : st.Inv b) {i : SizeT} {msg : Message}
    (hearly : msg.target ∉ st.pending b) (hs : st.step b (.send i msg) = some b') : st.Inv b' := by
  obtain ⟨k, hans, hp, happ, -, rfl⟩ := h.send hs
  rw [mem_pending hp] at hearly
  refine .of_answering (hans.deliver happ fun hc =>
    Nat.lt_of_not_le fun hk => hearly ⟨hc, hk⟩) ?_
  rwa [Boot.nodes_checkSent, Boot.place_deliver]

theorem inv_receive {b' : Boot} (h : st.Inv b) {i : SizeT}
    (hs : st.step b (.receive i) = some b') : st.Inv b' := by
  obtain ⟨⟨⟨hi, -⟩, hrun⟩, he⟩ := Option.ite_none_right_eq_some.mp hs
  obtain ⟨k, hans, hp, hk, hq, hn⟩ := h.running hi hrun
  split at he
  · cases he
  · rename_i m rest hqueue
    rw [hqueue] at hq
    obtain ⟨hm, hrest⟩ := List.forall_mem_cons.mp hq
    rw [handle_app hm] at he
    cases he
    by_cases his : i = st.serverIndex
    · subst his
      refine .of_answering (hans.take_server hrest) ?_
      show ((b.store _ _).nodes _).place = _ ∨ ((b.store _ _).nodes _).place = _ ∧ _
      rw [Boot.nodes_store_self]
      exact hp
    · have hc : i ∈ st.clients := st.mem_clients.mpr ⟨hi, his⟩
      have hserver : (b.take i rest).nodes st.serverIndex = b.nodes st.serverIndex :=
        Boot.nodes_store_of_ne (Ne.symm his)
      refine .of_answering (hans.store_client hc (hn hc) (.running hrun hk hrest)) ?_
      rwa [hserver]

/-- **Every step that is neither early nor overflows keeps the order.** -/
theorem inv_step {b' : Boot} (h : st.Inv b) {a : BootAct} (ha : st.early b a = false)
    (ho : st.overflows b a = false) (hs : st.step b a = some b') : st.Inv b' := by
  cases a with
  | init i =>
    obtain ⟨⟨hi, -⟩, he⟩ := Option.ite_none_right_eq_some.mp hs
    by_cases his : i = st.serverIndex
    · subst his
      exact inv_init_server h ho he
    · exact inv_init_client h (st.mem_clients.mpr ⟨hi, his⟩) he
  | send i msg => exact inv_send h (of_decide_eq_false ha) hs
  | receive i => exact inv_receive h hs

/-! ### Runs -/

def orderly (st : Startup) (as : List BootAct) : Bool :=
  Schedule.always st.step (fun b a => !st.early b a && !st.overflows b a) st.boot as

theorem inv_run {as : List BootAct} (hrun : Schedule.run st.step st.boot as = some b)
    (ho : st.orderly as = true) : st.Inv b := by
  refine Schedule.run_induction (P := fun as b => st.orderly as = true → st.Inv b)
    (fun _ => inv_boot st) ?_ hrun ho
  intro as b a b' hr ih hs ho
  rw [orderly, Schedule.always_snoc hr, Bool.and_eq_true_iff, Bool.and_eq_true_iff] at ho
  exact inv_step (ih ho.1) (by simpa using ho.2.1) (by simpa using ho.2.2) hs

theorem Inv.client_place (h : st.Inv b) {i : SizeT} (hi : i ∈ st.clients) :
    (b.nodes i).place = .start ∨ (b.nodes i).place = .waiting ∨ (b.nodes i).place = .running := by
  rcases h.cases with ⟨k, L, hreg, -⟩ | ⟨k, hans, -⟩
  · exact (hreg.client i hi).1.imp_right Or.inl
  · by_cases hk : k ≤ i.toNat
    · exact Or.inr (Or.inl (hans.unanswered i hi hk).place)
    · cases hans.answered i hi (Nat.lt_of_not_le hk) with
      | waiting hw _ _ _ _ => exact Or.inr (Or.inl hw)
      | running hr _ _ => exact Or.inr (Or.inr hr)

/-- **The first message is the answer, and no assertion fails.** -/
theorem Inv.ordered (h : st.Inv b) : st.Ordered b := by
  rcases h.cases with ⟨k, L, hreg, hp⟩ | ⟨k, hans, hp⟩
  · constructor
    · intro i hi _ m rest hq
      rw [(hreg.client i hi).2.1] at hq
      cases hq
    · intro i hi ha
      by_cases his : i = st.serverIndex
      · subst his
        rcases hp with ⟨hp, -⟩ | hp
        · rw [hp] at ha
          cases ha
        · rw [hp] at ha
          cases ha
      · rcases h.client_place (st.mem_clients.mpr ⟨hi, his⟩) with hc | hc | hc
        all_goals
          rw [hc] at ha
          cases ha
  · constructor
    · intro i hi hplace m rest hq
      by_cases hk : k ≤ i.toNat
      · rw [(hans.unanswered i hi hk).queue] at hq
        cases hq
      · cases hans.answered i hi (Nat.lt_of_not_le hk) with
        | @waiting d _ _ _ _ hq' _ =>
          rw [hq'] at hq
          cases hq
          exact ⟨rfl, d, rfl, rfl⟩
        | running hrun _ _ =>
          rw [hrun] at hplace
          rcases hplace with hc | hc
          · cases hc
          · cases hc
    · intro i hi ha
      by_cases his : i = st.serverIndex
      · subst his
        rcases hp with hp | ⟨hp, -⟩
        · rw [hp] at ha
          cases ha
        · rw [hp] at ha
          cases ha
      · rcases h.client_place (st.mem_clients.mpr ⟨hi, his⟩) with hc | hc | hc
        all_goals
          rw [hc] at ha
          cases ha

/-- **A message to a client that was not answered is what the client receives first.** -/
theorem early_send (h : st.Inv b) {a : BootAct} (ha : st.early b a = true) {b' : Boot}
    (hs : st.step b a = some b') : ¬ st.Ordered b' := by
  cases a with
  | init i => cases ha
  | receive i => cases ha
  | send i msg =>
    have hpending : msg.target ∈ st.pending b := of_decide_eq_true ha
    obtain ⟨k, hans, hp, happ, -, rfl⟩ := h.send hs
    obtain ⟨hc, hk⟩ := (mem_pending hp).mp hpending
    obtain ⟨hw, hq, -⟩ := hans.unanswered _ hc hk
    have htarget : ((b.deliver msg).checkSent i msg).nodes msg.target =
        { b.nodes msg.target with queue := [msg] } := by
      rw [Boot.nodes_checkSent, Boot.nodes_deliver_target rfl, hq]
      rfl
    intro hord
    obtain ⟨-, d, hkind, -⟩ := hord.first msg.target hc
      (Or.inr (by rw [htarget]; exact hw)) msg [] (by rw [htarget])
    exact happ.2.2 (happ.1.symm.trans hkind)

/-- The process does something undefined behind `INT_MAX`. -/
theorem overflow_step (h : st.Inv b) {a : BootAct} (ho : st.overflows b a = true) {b' : Boot}
    (hs : st.step b a = some b') : ¬ st.Ordered b' := by
  cases a with
  | send i msg => cases ho
  | receive i => cases ho
  | init i =>
    obtain ⟨⟨hi, -⟩, he⟩ := Option.ite_none_right_eq_some.mp hs
    simp only [overflows] at ho
    by_cases his : i = st.serverIndex
    · subst his
      rcases h.cases with ⟨k, L, hreg, ⟨hp, rfl⟩ | hp⟩ | ⟨k, hans, hp | ⟨hp, rfl⟩⟩
      · rw [hp] at ho
        cases ho
      · rw [hp] at ho
        obtain ⟨hk, hle⟩ := of_decide_eq_true ho
        simp only [initStep, hp, if_pos hk] at he
        split at he
        · cases he
        · rename_i m rest hq
          cases he
          have haborted : ((b.register st.serverIndex k m rest).nodes st.serverIndex).place =
              .aborted := by
            rw [Boot.register]
            split
            · split
              · rw [Boot.nodes_store_self]
                exact if_neg hle
              · rw [Boot.nodes_goto_self]
            · rw [Boot.nodes_goto_self]
          exact fun hord => hord.sound _ hi haborted
      · rw [hp] at ho
        obtain ⟨hk, hle⟩ := of_decide_eq_true ho
        have hsmall := hans.small
        omega
      · rw [hp] at ho
        cases ho
    · -- a client has no such loop
      rcases h.client_place (st.mem_clients.mpr ⟨hi, his⟩) with hp | hp | hp
      all_goals
        rw [hp] at ho
        cases ho

theorem not_overflows (hn : st.numNodes.toNat < 2 ^ 31) (b : Boot) (a : BootAct) :
    st.overflows b a = false := by
  cases a with
  | init i =>
    simp only [overflows]
    split <;> simp <;> omega
  | send i msg => rfl
  | receive i => rfl

/-- **The order of a start.** In every run: every client's first message is its
`DirectoryMsg` and no assertion fails, in every state that is passed, exactly when no step
of the run writes to a client before the server has answered it, and none takes the `int` of a
loop of `server_init` behind `INT_MAX` (with fewer than `2 ^ 31` nodes none does). -/
theorem startup_order (st : Startup) {as : List BootAct} {b : Boot}
    (hrun : Schedule.run st.step st.boot as = some b) :
    (∀ as₁ b₁, as₁ <+: as → Schedule.run st.step st.boot as₁ = some b₁ → st.Ordered b₁) ↔
      st.orderly as = true := by
  constructor
  · refine Schedule.run_induction (P := fun as _ => (∀ as₁ b₁, as₁ <+: as →
      Schedule.run st.step st.boot as₁ = some b₁ → st.Ordered b₁) → st.orderly as = true)
      (fun _ => rfl) ?_ hrun
    intro as b a b' hr ih hs hall
    have ho : st.orderly as = true :=
      ih fun as₁ b₁ hpre => hall as₁ b₁ (hpre.trans (List.prefix_append as [a]))
    have hlast := hall (as ++ [a]) b' (List.prefix_refl _) (Schedule.run_snoc.mpr ⟨b, hr, hs⟩)
    rw [orderly, Schedule.always_snoc hr, Bool.and_eq_true_iff]
    refine ⟨ho, ?_⟩
    have hearly : st.early b a = false := by
      by_contra hc
      exact early_send (inv_run hr ho) (Bool.of_not_eq_false hc) hs hlast
    have hover : st.overflows b a = false := by
      by_contra hc
      exact overflow_step (inv_run hr ho) (Bool.of_not_eq_false hc) hs hlast
    rw [hearly, hover]
    rfl
  · intro ho as₁ b₁ hpre hr
    obtain ⟨us, rfl⟩ := hpre
    rw [orderly, Schedule.always_append hr, Bool.and_eq_true_iff] at ho
    exact (inv_run hr ho.1).ordered

/-- Three nodes on `127.0.0.1`, `127.0.0.2` and `127.0.0.3`, all on port 8080. -/
def threeNodes : Startup where
  inetPton s :=
    if s = text ['1', '2', '7', '.', '0', '.', '0', '.', '1'] then some 16777343
    else if s = text ['1', '2', '7', '.', '0', '.', '0', '.', '2'] then some 33554559
    else if s = text ['1', '2', '7', '.', '0', '.', '0', '.', '3'] then some 50331775
    else none
  numNodes := 3
  serverIndex := 0
  ip i := text (['1', '2', '7', '.', '0', '.', '0', '.'] ++
    if i = 0 then ['1'] else if i = 1 then ['2'] else ['3'])
  port _ := 8080
  server_lt := by decide
  listens i _ := by
    by_cases h0 : i = 0
    · subst h0
      decide
    · by_cases h1 : i = 1
      · subst h1
        decide
      · simp only [if_neg h0, if_neg h1]
        decide
  port_lt _ _ := by decide

/-- Both clients register, and the server has answered node 1. -/
def answeredOne : List BootAct :=
  [.init 0, .init 1, .init 2, .init 0, .init 0, .init 0, .init 0, .init 0, .init 1]

/-- Node 1 puts a value under the key `"a"` of node 2. -/
def putToTwo : BootAct := .send 1 (Message.putMsg ⟨⟨[97], CStr.nulFree_a⟩, 2⟩ ⟨[7]⟩ 1 2)

/-- Node 1 waits with its put until node 2 has its directory as well. -/
theorem startup_order_three : ∃ b, Schedule.run threeNodes.step threeNodes.boot
      (answeredOne ++ [.init 0, .init 0, .init 2, putToTwo, .receive 2]) = some b ∧
    threeNodes.Ordered b := by
  have hrun : (Schedule.run threeNodes.step threeNodes.boot
      (answeredOne ++ [.init 0, .init 0, .init 2, putToTwo, .receive 2])).isSome = true := by
    decide +kernel
  obtain ⟨b, hb⟩ := Option.isSome_iff_exists.mp hrun
  exact ⟨b, hb, (startup_order threeNodes hb).mpr (by decide +kernel) _ b (List.prefix_refl _) hb⟩

/-- Node 1 puts at once, and node 2 fails on the assertion in `client_init`. -/
theorem client_aborts : ¬ ∀ (st : Startup) (as : List BootAct) (b : Boot),
    Schedule.run st.step st.boot as = some b → st.Ordered b := by
  intro h
  have hrun : (Schedule.run threeNodes.step threeNodes.boot
      (answeredOne ++ [putToTwo, .init 2])).any
      (fun b => decide ((b.nodes 2).place = .aborted)) = true := by
    decide +kernel
  obtain ⟨b, hb, hp⟩ := (Option.any_eq_true _ _).mp hrun
  exact (h threeNodes _ b hb).sound 2 (by decide) (of_decide_eq_true hp)

end Startup

end Eau2
