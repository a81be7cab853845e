import Eau2.Network.Wire
import Eau2.Utils.Arguments

/-!
# Registration

`network/network.h`: every node listens on its own address and starts with a directory of
the server alone.  A client sends the server a `RegisterMsg` with its address, the server
collects one from each (`server_init`) and then sends every client its directory, which
the client merges into its own (`client_init`).  What goes over the wire are bytes, and
`read()` may cut them anywhere.

The address a client registers is `args.ip` with `args.serverPort`, while it listens on
`args.ip` with `args.port`; a client on another port than the server's never hears from it.
The loops of `server_init` count with an `int`.

* `collect_spec`: the server's directory, in whatever order the clients register.
* `knows_server`, `knows_client`: every directory maps node `i` to what `i` registered.
* `registers`: **when every `init` has returned, every directory says where the nodes listen.**
* `completes_iff`: they can return exactly when every client's port is the server's, and an
  `int` can count the nodes and the bytes of their directory.
-/

namespace Eau2

open Bytes Serializer Tape

/-! ### Addresses -/

/-- `htons` on a little-endian machine: the low two bytes, swapped. -/
def htons (port : SizeT) : UInt16 :=
  UInt16.ofNat (port.toNat % 256 * 256 + port.toNat / 256 % 256)

theorem htons_inj {p q : SizeT} (hp : p < 65536) (hq : q < 65536) (h : htons p = htons q) :
    p = q := by
  have hp' : p.toNat < 65536 := UInt64.lt_iff_toNat_lt.mp hp
  have hq' : q.toNat < 65536 := UInt64.lt_iff_toNat_lt.mp hq
  have hn := congrArg UInt16.toNat h
  rw [htons, htons, UInt16.toNat_ofNat_of_lt' (by show _ < 65536; omega),
    UInt16.toNat_ofNat_of_lt' (by show _ < 65536; omega)] at hn
  exact UInt64.toNat_inj.mp (by omega)

/-- The address that `charToAddr_` and `NodeInfo(ip, port)` build, with `AF_INET` for its
family; `inetPton` is the library's, and a text that is no address ends the node. -/
def sockaddr (inetPton : Str → Option UInt32) (ip : Option Str) (port : SizeT) :
    Option NodeInfo := do
  let a ← inetPton (← ip)
  pure ⟨2, a, htons port⟩

namespace Network

/-- `Network()`: the address it listens on, and its state. -/
def ofArgs (inetPton : Str → Option UInt32) (a : Arguments) : Option (NodeInfo × Network) := do
  let myAddr ← sockaddr inetPton a.ip a.port
  let serverInfo ← sockaddr inetPton a.serverIp a.serverPort
  pure (myAddr, new (Directory.new.addInfo a.serverIndex serverInfo))

def handleRegisterMsg (net : Network) (sender : SizeT) (info : NodeInfo) : Option Network :=
  if (net.dir.addInfo sender info).size = net.dir.size + 1 then
    some { net with dir := net.dir.addInfo sender info }
  else none

def handleDirectoryMsg (net : Network) (dir : Directory) : Option Network := do
  let dir ← net.dir.mergeIn dir
  pure { net with dir := dir }

/-- The first loop of `server_init` from `i` on, over the connections in the order they are
accepted; `none` also where it would wait for another one.  To add to `INT_MAX` is
undefined. -/
def collect (a : Arguments) (net : Network) (i : Nat) : List (List Recv) → Option Network
  | [] => if i < a.numNodes.toNat then none else some net
  | rs :: rest =>
    if i < a.numNodes.toNat then do
      let (m, net) ← net.receiveMsg rs
      match m.body with
      | .register info => do
        let net ← net.handleRegisterMsg m.sender info
        if i + 1 < 2 ^ 31 then collect a net (i + 1) rest else none
      | _ => none
    else some net

/-- The body of the second loop, with what it hands to `send` and the address it goes to. -/
def sendDir (a : Arguments) (net : Network) (i : SizeT) :
    Option (List (NodeInfo × List UInt8) × Network) :=
  if i = a.serverIndex then some ([], net)
  else do
    let dMsg ← Message.directoryMsg net.dir a.index i
    let (out, net) ← net.sendMsg dMsg
    some ([out], net)

/-- The second loop of `server_init` from `i` on. -/
def sendDirs (a : Arguments) (net : Network) (i : Nat) :
    Option (List (NodeInfo × List UInt8) × Network) :=
  if i < a.numNodes.toNat then do
    let (outs, net) ← sendDir a net (UInt64.ofNat i)
    if i + 1 < 2 ^ 31 then do
      let (outs', net) ← sendDirs a net (i + 1)
      some (outs ++ outs', net)
    else none
  else some ([], net)
termination_by a.numNodes.toNat - i

def serverInit (a : Arguments) (incoming : List (List Recv)) (net : Network) :
    Option (List (NodeInfo × List UInt8) × Network) := do
  let net ← net.collect a 1 incoming
  sendDirs a net 0

/-- `client_init` up to the `sendMsg`. -/
def clientRegister (inetPton : Str → Option UInt32) (a : Arguments) (net : Network) :
    Option ((NodeInfo × List UInt8) × Network) := do
  let info ← sockaddr inetPton a.ip a.serverPort
  net.sendMsg (Message.registerMsg info a.index a.serverIndex)

/-- The rest of `client_init`, with its assertion. -/
def clientFinish (rs : List Recv) (net : Network) : Option Network := do
  let (m, net) ← net.receiveMsg rs
  if m.kind = .Dir then
    match m.body with
    | .dir d => net.handleDirectoryMsg d
    | _ => none
  else none

end Network

open Network

def nodesBelow (n : SizeT) : List SizeT := (List.range n.toNat).map UInt64.ofNat

/-- The command lines of the nodes `0, …, numNodes - 1` that make up a run: one server, and
an address to listen on for each. -/
structure Startup where
  /-- The library's `inet_pton`. -/
  inetPton : Str → Option UInt32
  numNodes : SizeT
  serverIndex : SizeT
  ip : SizeT → Str
  port : SizeT → SizeT
  server_lt : serverIndex < numNodes
  listens : ∀ i, i < numNodes → (inetPton (ip i)).isSome
  port_lt : ∀ i, i < numNodes → port i < 65536

namespace Startup

variable (st : Startup)

def args (i : SizeT) : Arguments :=
  { Arguments.new with
    numNodes := st.numNodes
    index := i
    ip := some (st.ip i)
    port := st.port i
    serverIp := some (st.ip st.serverIndex)
    serverPort := st.port st.serverIndex
    serverIndex := st.serverIndex }

def addr (i : SizeT) : UInt32 := (st.inetPton (st.ip i)).getD 0

def listensOn (i : SizeT) : NodeInfo := ⟨2, st.addr i, htons (st.port i)⟩

/-- The address node `i` is known by. -/
def registered (i : SizeT) : NodeInfo := ⟨2, st.addr i, htons (st.port st.serverIndex)⟩

def clients : List SizeT := (nodesBelow st.numNodes).filter (· ≠ st.serverIndex)

def clientStart (i : SizeT) : Option ((NodeInfo × List UInt8) × Network) := do
  let (_, net) ← ofArgs st.inetPton (st.args i)
  net.clientRegister st.inetPton (st.args i)

def serverRun (incoming : List (List Recv)) : Option (List (NodeInfo × List UInt8) × Network) := do
  let (_, net) ← ofArgs st.inetPton (st.args st.serverIndex)
  net.serverInit (st.args st.serverIndex) incoming

/-- `rs` is what `read()` returns on a connection over which `bytes` come in. -/
def Delivers (bytes : List UInt8) (rs : List Recv) : Prop :=
  ∃ retries chunks, Cuts chunks bytes ∧ rs = stream retries chunks

/-- The server accepts the connection that client `i` made. -/
def Registers (i : SizeT) (rs : List Recv) : Prop :=
  ∃ bytes net, st.clientStart i = some ((st.listensOn st.serverIndex, bytes), net) ∧
    Delivers bytes rs

def Right (d : Directory) : Prop :=
  d.size = st.numNodes.toNat ∧ ∀ i, i < st.numNodes → d.getInfo i = some (st.listensOn i)

/-- The first connection that client `i` accepts: somebody sent a message to the address it
listens on, and only the server sends `DirectoryMsg`s. -/
def Hears (outs : List (NodeInfo × List UInt8)) (i : SizeT) (rs : List Recv) : Prop :=
  ∃ bytes, Delivers bytes rs ∧ ((st.listensOn i, bytes) ∈ outs ∨
    ∃ msg : Message, msg.Wf ∧ msg.kind ≠ .Dir ∧ bytes = wire msg)

/-- With these connections at the server every `init` has returned, and leaves the server and
the clients with these networks. -/
def Completed (incoming : List (List Recv)) (server : Network) (client : SizeT → Network) :
    Prop :=
  ∃ outs, st.serverRun incoming = some (outs, server) ∧
    ∀ i ∈ st.clients, ∃ out net rs, st.clientStart i = some (out, net) ∧ st.Hears outs i rs ∧
      net.clientFinish rs = some (client i)

/-- An `int` can count the nodes, and holds the number of bytes of a `DirectoryMsg` of all
nodes without looking negative. -/
def Counts : Prop :=
  st.numNodes.toNat < 2 ^ 31 ∧ (36 + 20 * st.numNodes.toNat) % 2 ^ 32 < 2 ^ 31

/-! ### The node numbers -/

theorem mem_nodesBelow {n i : SizeT} : i ∈ nodesBelow n ↔ i < n := by
  rw [nodesBelow, List.mem_map, UInt64.lt_iff_toNat_lt]
  constructor
  · rintro ⟨k, hk, rfl⟩
    have hk' := List.mem_range.mp hk
    have hn := UInt64.toNat_lt n
    rwa [UInt64.toNat_ofNat_of_lt' (by show k < 2 ^ 64; omega)]
  · intro hi
    exact ⟨i.toNat, List.mem_range.mpr hi, UInt64.ofNat_toNat⟩

theorem nodup_nodesBelow (n : SizeT) : (nodesBelow n).Nodup := by
  refine (List.nodup_map_iff_inj_on List.nodup_range).mpr ?_
  intro j hj k hk he
  have hj' := List.mem_range.mp hj
  have hk' := List.mem_range.mp hk
  have hn := UInt64.toNat_lt n
  have he' := congrArg UInt64.toNat he
  rwa [UInt64.toNat_ofNat_of_lt' (by show j < 2 ^ 64; omega),
    UInt64.toNat_ofNat_of_lt' (by show k < 2 ^ 64; omega)] at he'

theorem length_nodesBelow (n : SizeT) : (nodesBelow n).length = n.toNat := by
  rw [nodesBelow, List.length_map, List.length_range]

theorem mem_clients {i : SizeT} : i ∈ st.clients ↔ i < st.numNodes ∧ i ≠ st.serverIndex := by
  rw [clients, List.mem_filter, mem_nodesBelow, decide_eq_true_iff]

theorem length_clients : st.clients.length = st.numNodes.toNat - 1 := by
  have hfilter : st.clients = (nodesBelow st.numNodes).erase st.serverIndex := by
    rw [(nodup_nodesBelow _).erase_eq_filter, clients]
    refine List.filter_congr fun i _ => ?_
    by_cases hi : i = st.serverIndex <;> simp [hi]
  rw [hfilter, List.length_erase_of_mem (mem_nodesBelow.mpr st.server_lt), length_nodesBelow]

theorem sockaddr_eq {i : SizeT} (hi : i < st.numNodes) (port : SizeT) :
    sockaddr st.inetPton (some (st.ip i)) port = some ⟨2, st.addr i, htons port⟩ := by
  obtain ⟨a, ha⟩ := Option.isSome_iff_exists.mp (st.listens i hi)
  rw [sockaddr, addr]
  simp only [Option.bind_eq_bind, Option.bind_some, ha]
  rfl

theorem registered_server : st.registered st.serverIndex = st.listensOn st.serverIndex := rfl

/-! ### One directory entry for each node -/

/-- The directory has an entry for every node, with the address it registered. -/
structure Knows (d : Directory) : Prop where
  valid : d.ips.Valid
  getInfo : ∀ i, d.getInfo i = if i < st.numNodes then some (st.registered i) else none

variable {st}

theorem Knows.size {d : Directory} (h : st.Knows d) : d.size = st.numNodes.toNat := by
  rw [← length_nodesBelow]
  refine Directory.size_eq_of_mem h.valid (nodup_nodesBelow _) fun i => ?_
  rw [h.getInfo, mem_nodesBelow]
  split
  · exact iff_of_true rfl (by assumption)
  · exact iff_of_false (by simp) (by assumption)

/-- **A directory of what was registered is right when that is where the nodes listen.** -/
theorem Knows.right_iff {d : Directory} (h : st.Knows d) :
    st.Right d ↔ ∀ i, i < st.numNodes → st.registered i = st.listensOn i := by
  constructor
  · rintro ⟨-, hright⟩ i hi
    have hi' := hright i hi
    rw [h.getInfo, if_pos hi] at hi'
    exact Option.some.inj hi'
  · intro hsame
    refine ⟨h.size, fun i hi => ?_⟩
    rw [h.getInfo, if_pos hi, hsame i hi]

theorem registered_eq_iff {i : SizeT} (hi : i < st.numNodes) :
    st.registered i = st.listensOn i ↔ st.port i = st.port st.serverIndex := by
  constructor
  · intro he
    have hport := congrArg NodeInfo.sinPort he
    exact (htons_inj (st.port_lt _ st.server_lt) (st.port_lt i hi) hport).symm
  · intro he
    rw [registered, listensOn, he]

/-! ### The clients register -/

variable (st)

def registerMsg (i : SizeT) : Message := Message.registerMsg (st.registered i) i st.serverIndex

def serverDir : Directory := Directory.new.addInfo st.serverIndex (st.listensOn st.serverIndex)

theorem getInfo_serverDir (i : SizeT) : st.serverDir.getInfo i =
    if st.serverIndex = i then some (st.listensOn st.serverIndex) else none := by
  rw [serverDir, Directory.getInfo_addInfo Directory.valid_new]
  rw [show Directory.new.getInfo i = none from Map.get_new 4 i]

theorem ofArgs_eq {i : SizeT} (hi : i < st.numNodes) : ofArgs st.inetPton (st.args i) =
    some (st.listensOn i, Network.new st.serverDir) := by
  show (sockaddr st.inetPton (some (st.ip i)) (st.port i)).bind (fun myAddr =>
    (sockaddr st.inetPton (some (st.ip st.serverIndex)) (st.port st.serverIndex)).bind _) = _
  rw [st.sockaddr_eq hi, st.sockaddr_eq st.server_lt]
  rfl

theorem idle_new (d : Directory) : Idle (Network.new d) := ⟨sound_new, rfl⟩

theorem clientStart_spec {i : SizeT} (hi : i < st.numNodes) : ∃ net,
    st.clientStart i = some ((st.listensOn st.serverIndex, wire (st.registerMsg i)), net) ∧
      Idle net ∧ net.dir = st.serverDir := by
  have hserver : (Network.new st.serverDir).dir.getInfo (st.registerMsg i).target =
      some (st.listensOn st.serverIndex) := by
    refine (st.getInfo_serverDir st.serverIndex).trans ?_
    rw [if_pos rfl]
  obtain ⟨net, e, hs, hu, hdir⟩ := sendMsg_spec (idle_new st.serverDir).sound
    (Message.wf_ofBody (b := .register (st.registered i)) trivial i st.serverIndex)
    (show 32 % 2 ^ 32 < 2 ^ 31 by decide) hserver
  refine ⟨net, ?_, ⟨hs, hu⟩, hdir⟩
  rw [clientStart, st.ofArgs_eq hi]
  show (sockaddr st.inetPton (some (st.ip i)) (st.port st.serverIndex)).bind _ = _
  rw [st.sockaddr_eq hi]
  exact e

/-! ### The server collects -/

variable {st}

theorem Registers.delivers {i : SizeT} {rs : List Recv} (hi : i < st.numNodes)
    (h : st.Registers i rs) : Delivers (wire (st.registerMsg i)) rs := by
  obtain ⟨bytes, net, e, hd⟩ := h
  obtain ⟨net', e', -, -⟩ := st.clientStart_spec hi
  rw [e] at e'
  cases e'
  exact hd

theorem receive_register {net : Network} (h : Idle net) {i : SizeT} {rs : List Recv}
    (hd : Delivers (wire (st.registerMsg i)) rs) :
    ∃ net', net.receiveMsg rs = some (st.registerMsg i, net') ∧ Idle net' ∧ net'.dir = net.dir := by
  obtain ⟨retries, chunks, hc, rfl⟩ := hd
  have hr : Reads (Message.deserialize (st.registerMsg i).kind) (st.registerMsg i).bytes
      (st.registerMsg i) :=
    (reads_readMsgKind _).bind ((reads_readSizeT _).bind ((reads_readSizeT _).bind
      ((Body.reads_one (NodeInfo.reads_deserialize _) Body.register).map (Reads.pure _))))
  obtain ⟨net', e, hidle, -, hdir⟩ := receiveMsg_of_reads h hr hc retries
  exact ⟨net', e, hidle, hdir⟩

/-- **Whatever the order, the server knows every client that registered.** -/
theorem collect_spec (hn : st.numNodes.toNat < 2 ^ 31) {a : Arguments}
    (ha : a.numNodes = st.numNodes) {net : Network} (h : Idle net) (hv : net.dir.ips.Valid)
    {order : List SizeT} {incoming : List (List Recv)}
    (hin : List.Forall₂ (fun i rs => Delivers (wire (st.registerMsg i)) rs) order incoming)
    (hnodup : order.Nodup) (hnew : ∀ i ∈ order, net.dir.getInfo i = none) {k : Nat}
    (hk : k + order.length = st.numNodes.toNat) :
    ∃ net', net.collect a k incoming = some net' ∧ Idle net' ∧ net'.dir.ips.Valid ∧
      ∀ i, net'.dir.getInfo i =
        if i ∈ order then some (st.registered i) else net.dir.getInfo i := by
  induction hin generalizing net k with
  | nil =>
    refine ⟨net, ?_, h, hv, fun i => ?_⟩
    · rw [collect, if_neg]
      rw [ha, ← hk]
      exact lt_irrefl k
    · rw [if_neg List.not_mem_nil]
  | @cons i rs order incoming hd _ ih =>
    rw [List.length_cons] at hk
    obtain ⟨hi, hnodup⟩ := List.nodup_cons.mp hnodup
    obtain ⟨net₁, e, hidle, hdir⟩ := receive_register h hd
    have hnone : net₁.dir.getInfo i = none := by
      rw [hdir]
      exact hnew i List.mem_cons_self
    have hv₁ : net₁.dir.ips.Valid := by rwa [hdir]
    have hreg : net₁.handleRegisterMsg i (st.registered i) =
        some { net₁ with dir := net₁.dir.addInfo i (st.registered i) } :=
      if_pos (Directory.size_addInfo hnone _)
    have hnew₁ : ∀ j ∈ order, (net₁.dir.addInfo i (st.registered i)).getInfo j = none := by
      intro j hj
      have hij : i ≠ j := fun he => hi (he ▸ hj)
      rw [Directory.getInfo_addInfo hv₁, if_neg hij, hdir]
      exact hnew j (List.mem_cons_of_mem i hj)
    have hidle₁ : Idle { net₁ with dir := net₁.dir.addInfo i (st.registered i) } :=
      ⟨hidle.sound, hidle.drained⟩
    obtain ⟨net', e', hidle', hv', hget⟩ :=
      ih hidle₁ (hv₁.put i (st.registered i)) hnodup hnew₁ (k := k + 1) (by omega)
    refine ⟨net', ?_, hidle', hv', fun j => ?_⟩
    · rw [collect, if_pos (by rw [ha]; omega), e]
      show (net₁.handleRegisterMsg i (st.registered i)).bind _ = _
      rw [hreg, Option.bind_some, if_pos (by omega)]
      exact e'
    · rw [hget j, Directory.getInfo_addInfo hv₁, hdir]
      by_cases hj : j ∈ order
      · rw [if_pos hj, if_pos (List.mem_cons_of_mem i hj)]
      · rw [if_neg hj]
        by_cases hij : i = j
        · subst hij
          rw [if_pos rfl, if_pos List.mem_cons_self]
        · rw [if_neg hij, if_neg fun hm => ?_]
          rcases List.mem_cons.mp hm with he | hm
          · exact hij he.symm
          · exact hj hm

/-- The loop returns only where its `int` can count the nodes. -/
theorem collect_lt {a : Arguments} {net net' : Network} {incoming : List (List Recv)} {k : Nat}
    (hk : k < 2 ^ 31) (h : net.collect a k incoming = some net') : a.numNodes.toNat < 2 ^ 31 := by
  induction incoming generalizing net k with
  | nil =>
    rw [collect] at h
    obtain ⟨hle, -⟩ := Option.ite_none_left_eq_some.mp h
    omega
  | cons rs rest ih =>
    rw [collect] at h
    split at h
    · obtain ⟨⟨m, net₁⟩, -, h⟩ := Option.bind_eq_some_iff.mp h
      dsimp only at h
      split at h
      · obtain ⟨net₂, -, h⟩ := Option.bind_eq_some_iff.mp h
        obtain ⟨hlt, h⟩ := Option.ite_none_right_eq_some.mp h
        exact ih hlt h
      · cases h
    · omega

/-- **The server's directory**, whatever the order. -/
theorem collect_knows (hn : st.numNodes.toNat < 2 ^ 31) {order : List SizeT}
    {incoming : List (List Recv)} (hperm : order.Perm st.clients)
    (hin : List.Forall₂ st.Registers order incoming) :
    ∃ net, (Network.new st.serverDir).collect (st.args st.serverIndex) 1 incoming = some net ∧
      Idle net ∧ st.Knows net.dir := by
  have hmem : ∀ i, i ∈ order ↔ i < st.numNodes ∧ i ≠ st.serverIndex := fun i =>
    hperm.mem_iff.trans (st.mem_clients)
  have hdel : List.Forall₂ (fun i rs => Delivers (wire (st.registerMsg i)) rs) order incoming := by
    refine List.forall₂_iff_get.mpr ⟨hin.length_eq, fun k hk hk' => ?_⟩
    have hreg := (List.forall₂_iff_get.mp hin).2 k hk hk'
    exact hreg.delivers ((hmem _).mp (List.get_mem order ⟨k, hk⟩)).1
  have hnodup : order.Nodup := hperm.nodup_iff.mpr ((nodup_nodesBelow _).filter _)
  have hlen : 1 + order.length = st.numNodes.toNat := by
    have hpos := UInt64.lt_iff_toNat_lt.mp st.server_lt
    rw [hperm.length_eq, st.length_clients]
    omega
  obtain ⟨net, e, hidle, hv, hget⟩ := collect_spec hn (a := st.args st.serverIndex) rfl
    (idle_new st.serverDir)
    (Directory.valid_new.put st.serverIndex (st.listensOn st.serverIndex)) hdel hnodup (by
      intro i hi
      have hne := ((hmem i).mp hi).2
      show st.serverDir.getInfo i = none
      rw [st.getInfo_serverDir, if_neg hne.symm]) hlen
  refine ⟨net, e, hidle, hv, fun i => ?_⟩
  rw [hget i, show (Network.new st.serverDir).dir.getInfo i = _ from st.getInfo_serverDir i]
  simp only [hmem]
  by_cases his : st.serverIndex = i
  · subst his
    rw [if_neg (fun hc => hc.2 rfl), if_pos rfl, if_pos st.server_lt, registered_server]
  · rw [if_neg his]
    by_cases hlt : i < st.numNodes
    · rw [if_pos ⟨hlt, fun he => his he.symm⟩, if_pos hlt]
    · rw [if_neg (fun hc => hlt hc.1), if_neg hlt]

/-! ### The server answers -/

/-- The `DirectoryMsg` for client `i`, with a clone of the server's directory. -/
def directoryMsg (st : Startup) (d : Directory) (i : SizeT) : Message :=
  Message.ofBody (.dir d) st.serverIndex i

theorem Knows.directoryMsg {d : Directory} (h : st.Knows d) (hn : st.numNodes.toNat < 2 ^ 31) :
    ∃ d', d'.Wf ∧ st.Knows d' ∧ ∀ i,
      Message.directoryMsg d st.serverIndex i = some (st.directoryMsg d' i) ∧
      (st.directoryMsg d' i).length = 36 + 20 * st.numNodes.toNat := by
  obtain ⟨d', hclone, hwf, hsame⟩ := Directory.get_clone h.valid (by rwa [h.size])
  have hknows : st.Knows d' := ⟨hwf.valid, fun i => (hsame i).trans (h.getInfo i)⟩
  refine ⟨d', hwf, hknows, fun i => ⟨?_, ?_⟩⟩
  · rw [Message.directoryMsg, hclone]
    rfl
  · show 20 + (16 + 20 * d'.size) = _
    rw [hknows.size]
    omega

variable {d d' : Directory} (hknows : st.Knows d) (hwf : d'.Wf)
  (hmsg : ∀ i, Message.directoryMsg d st.serverIndex i = some (st.directoryMsg d' i) ∧
    (st.directoryMsg d' i).length = 36 + 20 * st.numNodes.toNat)
include hknows hwf hmsg

theorem sendDir_eq {net : Network} (hs : net.mySer.Sound) (hdir : net.dir = d) {i : SizeT}
    (hi : i < st.numNodes) (hne : i ≠ st.serverIndex) : ∃ net',
      sendDir (st.args st.serverIndex) net i =
        (if (36 + 20 * st.numNodes.toNat) % 2 ^ 32 < 2 ^ 31 then
          some ([(st.registered i, wire (st.directoryMsg d' i))], net') else none) ∧
      net'.mySer.Sound ∧ net'.dir = d := by
  have hinfo : net.dir.getInfo (st.directoryMsg d' i).target = some (st.registered i) := by
    rw [hdir]
    exact (hknows.getInfo i).trans (if_pos hi)
  have hmsgwf : (st.directoryMsg d' i).Wf :=
    Message.wf_ofBody (b := .dir d') hwf st.serverIndex i
  obtain ⟨net', e, hs', -, hdir'⟩ := sendMsg_eq hs hmsgwf hinfo
  refine ⟨net', ?_, hs', hdir'.trans hdir⟩
  have hserver : ¬ i = (st.args st.serverIndex).serverIndex := hne
  have hconstruct : Message.directoryMsg d (st.args st.serverIndex).index i = _ := (hmsg i).1
  rw [sendDir, if_neg hserver, hdir, hconstruct]
  show (net.sendMsg (st.directoryMsg d' i)).bind _ = _
  rw [e, (hmsg i).2]
  split <;> rfl

theorem sendDirs_spec (hcounts : st.Counts) {left k : Nat} (hk : k + left = st.numNodes.toNat)
    {net : Network} (hs : net.mySer.Sound) (hdir : net.dir = d) : ∃ net',
      sendDirs (st.args st.serverIndex) net k = some
        ((((List.range' k left).map UInt64.ofNat).filter (· ≠ st.serverIndex)).map fun i =>
          (st.registered i, wire (st.directoryMsg d' i)), net') ∧ net'.dir = d := by
  have hmax := st.numNodes.toNat_lt
  have hsmall := hcounts.1
  have hnum : (st.args st.serverIndex).numNodes.toNat = st.numNodes.toNat := rfl
  induction left generalizing k net with
  | zero =>
    refine ⟨net, ?_, hdir⟩
    rw [sendDirs, if_neg (by omega)]
    rfl
  | succ left ih =>
    have hlt : UInt64.ofNat k < st.numNodes := by
      rw [UInt64.lt_iff_toNat_lt, UInt64.toNat_ofNat_of_lt' (show k < 2 ^ 64 by omega)]
      omega
    rw [sendDirs, if_pos (by omega), List.range'_succ, List.map_cons]
    by_cases hi : UInt64.ofNat k = st.serverIndex
    · obtain ⟨net', e, hd⟩ := ih (k := k + 1) (by omega) hs hdir
      refine ⟨net', ?_, hd⟩
      have hself : sendDir (st.args st.serverIndex) net (UInt64.ofNat k) = some ([], net) :=
        if_pos hi
      rw [hself, List.filter_cons_of_neg (by simp [hi])]
      simp only [Option.bind_eq_bind, Option.bind_some]
      rw [if_pos (by omega), e]
      rfl
    · obtain ⟨net₁, e₁, hs₁, hdir₁⟩ := sendDir_eq hknows hwf hmsg hs hdir hlt hi
      rw [if_pos hcounts.2] at e₁
      obtain ⟨net', e, hd⟩ := ih (k := k + 1) (by omega) hs₁ hdir₁
      refine ⟨net', ?_, hd⟩
      rw [e₁, List.filter_cons_of_pos (by simp [hi]), List.map_cons]
      simp only [Option.bind_eq_bind, Option.bind_some]
      rw [if_pos (by omega), e]
      rfl

/-- The loop returns only where the message is not too long. -/
theorem length_of_sendDirs {left k : Nat} (hk : k + left = st.numNodes.toNat)
    {net : Network} (hs : net.mySer.Sound) (hdir : net.dir = d) {i : SizeT}
    (hki : k ≤ i.toNat) (hi : i < st.numNodes) (hne : i ≠ st.serverIndex)
    {r : List (NodeInfo × List UInt8) × Network}
    (h : sendDirs (st.args st.serverIndex) net k = some r) :
    (36 + 20 * st.numNodes.toNat) % 2 ^ 32 < 2 ^ 31 := by
  have hmax := st.numNodes.toNat_lt
  have hlt := UInt64.lt_iff_toNat_lt.mp hi
  have hnum : (st.args st.serverIndex).numNodes.toNat = st.numNodes.toNat := rfl
  induction left generalizing k net r with
  | zero => omega
  | succ left ih =>
    rw [sendDirs, if_pos (by omega)] at h
    obtain ⟨⟨outs, net₁⟩, e₁, h⟩ := Option.bind_eq_some_iff.mp h
    obtain ⟨-, h⟩ := Option.ite_none_right_eq_some.mp h
    obtain ⟨⟨outs', net₂⟩, e₂, -⟩ := Option.bind_eq_some_iff.mp h
    by_cases his : UInt64.ofNat k = st.serverIndex
    · have hself : sendDir (st.args st.serverIndex) net (UInt64.ofNat k) = some ([], net) :=
        if_pos his
      rw [hself] at e₁
      cases e₁
      have hik : i.toNat ≠ k := by
        rintro rfl
        exact hne (by rw [← his, UInt64.ofNat_toNat])
      exact ih (k := k + 1) (by omega) hs hdir (by omega) e₂
    · have hk' : UInt64.ofNat k < st.numNodes := by
        rw [UInt64.lt_iff_toNat_lt, UInt64.toNat_ofNat_of_lt' (show k < 2 ^ 64 by omega)]
        omega
      obtain ⟨net', e', -⟩ := sendDir_eq hknows hwf hmsg hs hdir hk' his
      rw [e'] at e₁
      exact (Option.ite_none_right_eq_some.mp e₁).1

omit hknows hwf hmsg

/-- **The server's run**: what it knows, and what it sends to whom. -/
theorem knows_server (hcounts : st.Counts) {order : List SizeT} {incoming : List (List Recv)}
    (hperm : order.Perm st.clients) (hin : List.Forall₂ st.Registers order incoming) :
    ∃ d' server, d'.Wf ∧ st.Knows d' ∧ st.Knows server.dir ∧ st.serverRun incoming =
      some (st.clients.map fun i => (st.registered i, wire (st.directoryMsg d' i)), server) := by
  obtain ⟨net, e, hidle, hknows⟩ := collect_knows hcounts.1 hperm hin
  obtain ⟨d', hwf, hknows', hmsg⟩ := hknows.directoryMsg hcounts.1
  obtain ⟨server, e', hdir⟩ := sendDirs_spec hknows hwf hmsg hcounts (Nat.zero_add _)
    hidle.sound rfl
  refine ⟨d', server, hwf, hknows', by rwa [hdir], ?_⟩
  rw [serverRun, st.ofArgs_eq st.server_lt]
  show ((Network.new st.serverDir).collect (st.args st.serverIndex) 1 incoming).bind _ = _
  rw [e, clients, nodesBelow, List.range_eq_range']
  exact e'

theorem counts_of_serverRun {order : List SizeT} {incoming : List (List Recv)}
    (hperm : order.Perm st.clients) (hin : List.Forall₂ st.Registers order incoming)
    {r : List (NodeInfo × List UInt8) × Network} (h : st.serverRun incoming = some r) :
    st.Counts := by
  rw [serverRun, st.ofArgs_eq st.server_lt] at h
  have hinit : ((Network.new st.serverDir).collect (st.args st.serverIndex) 1 incoming).bind
      (fun net => sendDirs (st.args st.serverIndex) net 0) = some r := h
  obtain ⟨net, e, h⟩ := Option.bind_eq_some_iff.mp hinit
  have hn : st.numNodes.toNat < 2 ^ 31 := collect_lt (by decide) e
  obtain ⟨net', e', hidle, hknows⟩ := collect_knows hn hperm hin
  obtain rfl : net' = net := Option.some.inj (e'.symm.trans e)
  obtain ⟨d', hwf, -, hmsg⟩ := hknows.directoryMsg hn
  refine ⟨hn, ?_⟩
  have hlen := st.length_clients
  cases hclients : st.clients with
  | nil =>
    rw [hclients, List.length_nil] at hlen
    omega
  | cons i is =>
    obtain ⟨hi, hne⟩ := st.mem_clients.mp (hclients ▸ List.mem_cons_self (a := i) (l := is))
    exact length_of_sendDirs hknows hwf hmsg (Nat.zero_add _) hidle.sound rfl (Nat.zero_le _) hi
      hne h

/-! ### The clients finish -/

theorem Knows.mergeIn {d : Directory} (h : st.Knows d) (hn : st.numNodes.toNat < 2 ^ 31) :
    ∃ d', st.serverDir.mergeIn d = some d' ∧ st.Knows d' := by
  have hv : st.serverDir.ips.Valid := Directory.valid_new.put _ _
  obtain ⟨d', e, -, hget⟩ := Directory.getInfo_mergeIn hv.cap_pos h.valid (by rwa [h.size])
  refine ⟨d', e, (Directory.wf_mergeIn hv h.valid e).1, fun i => ?_⟩
  rw [hget i, h.getInfo, st.getInfo_serverDir]
  by_cases hi : i < st.numNodes
  · rw [if_pos hi]
    rfl
  · have hs : ¬ st.serverIndex = i := by
      intro he
      rw [← he] at hi
      exact hi st.server_lt
    rw [if_neg hi, if_neg hs]
    rfl

/-- **A client merges what the server sent into what it started with.** -/
theorem knows_client (hn : st.numNodes.toNat < 2 ^ 31) {d' : Directory} (hwf : d'.Wf)
    (hknows : st.Knows d') {i : SizeT}
    {client : Network} (hidle : Idle client) (hdir : client.dir = st.serverDir)
    {rs : List Recv} (hd : Delivers (wire (st.directoryMsg d' i)) rs) :
    ∃ client', client.clientFinish rs = some client' ∧ st.Knows client'.dir := by
  obtain ⟨retries, chunks, hc, rfl⟩ := hd
  obtain ⟨d'', hr, hsame, hv⟩ := Directory.reads_deserialize_valid hwf
  have hread : Reads (Message.deserialize (st.directoryMsg d' i).kind)
      (st.directoryMsg d' i).bytes (st.directoryMsg d'' i) :=
    (reads_readMsgKind _).bind ((reads_readSizeT _).bind ((reads_readSizeT _).bind
      ((Body.reads_one hr Body.dir).map (Reads.pure _))))
  obtain ⟨net, e, -, -, hdir'⟩ := receiveMsg_of_reads hidle hread hc retries
  have hknows'' : st.Knows d'' := ⟨hv, fun j => (hsame j).trans (hknows.getInfo j)⟩
  obtain ⟨d, em, hk⟩ := hknows''.mergeIn hn
  refine ⟨{ net with dir := d }, ?_, hk⟩
  rw [clientFinish, e]
  show (net.dir.mergeIn d'').bind _ = _
  rw [hdir', hdir, em]
  rfl

theorem clientFinish_none {client : Network} (hidle : Idle client) {msg : Message} (hwf : msg.Wf)
    (hkind : msg.kind ≠ .Dir) {rs : List Recv} (hd : Delivers (wire msg) rs) :
    client.clientFinish rs = none := by
  obtain ⟨retries, chunks, hc, rfl⟩ := hd
  obtain ⟨m, net, e, hsame, -⟩ := receiveMsg_spec hidle hwf hc retries
  rw [clientFinish, e]
  exact if_neg fun hm => hkind (hsame.kind.symm.trans hm)

/-! ### Registration -/

/-- **What a client merges that hears from the server**; that it hears from the server means
that it listens on the server's port. -/
theorem Hears.finish (hn : st.numNodes.toNat < 2 ^ 31) {d' : Directory} (hwf : d'.Wf)
    (hknows : st.Knows d') {i : SizeT} (hi : i < st.numNodes) {rs : List Recv}
    (h : st.Hears (st.clients.map fun i => (st.registered i, wire (st.directoryMsg d' i))) i rs)
    {net client : Network} (hidle : Idle net) (hdir : net.dir = st.serverDir)
    (he : net.clientFinish rs = some client) :
    st.port i = st.port st.serverIndex ∧ st.Knows client.dir := by
  obtain ⟨bytes, hd, hout | ⟨msg, hmsg, hkind, rfl⟩⟩ := h
  · obtain ⟨j, -, hj⟩ := List.mem_map.mp hout
    obtain ⟨hinfo, rfl⟩ := Prod.mk.inj hj
    have hport : htons (st.port st.serverIndex) = htons (st.port i) :=
      congrArg NodeInfo.sinPort hinfo
    obtain ⟨client', e', hk⟩ := knows_client hn hwf hknows hidle hdir hd
    obtain rfl : client' = client := Option.some.inj (e'.symm.trans he)
    exact ⟨(htons_inj (st.port_lt _ st.server_lt) (st.port_lt i hi) hport).symm, hk⟩
  · rw [clientFinish_none hidle hmsg hkind hd] at he
    cases he

/-- **When every `init` has returned**, every node listens on the server's port, and every
directory holds what was registered. -/
theorem Completed.knows {order : List SizeT} {incoming : List (List Recv)}
    (hperm : order.Perm st.clients) (hin : List.Forall₂ st.Registers order incoming)
    {server : Network} {client : SizeT → Network} (h : st.Completed incoming server client) :
    st.Counts ∧ (∀ i ∈ st.clients, st.port i = st.port st.serverIndex) ∧
      st.Knows server.dir ∧ ∀ i ∈ st.clients, st.Knows (client i).dir := by
  obtain ⟨outs, hserver, hclients⟩ := h
  have hcounts := counts_of_serverRun hperm hin hserver
  obtain ⟨d', server', hwf, hknows', hknows, e⟩ := knows_server hcounts hperm hin
  rw [e] at hserver
  cases hserver
  have hfinish : ∀ i ∈ st.clients,
      st.port i = st.port st.serverIndex ∧ st.Knows (client i).dir := by
    intro i hi
    obtain ⟨out, net, rs, hstart, hhears, hdone⟩ := hclients i hi
    have hlt := (st.mem_clients.mp hi).1
    obtain ⟨net', e', hidle, hdir⟩ := st.clientStart_spec hlt
    rw [e'] at hstart
    cases hstart
    exact hhears.finish hcounts.1 hwf hknows' hlt hidle hdir hdone
  exact ⟨hcounts, fun i hi => (hfinish i hi).1, hknows, fun i hi => (hfinish i hi).2⟩

theorem registered_eq_of_port (hport : ∀ i ∈ st.clients, st.port i = st.port st.serverIndex)
    {i : SizeT} (hi : i < st.numNodes) : st.registered i = st.listensOn i := by
  refine (registered_eq_iff hi).mpr ?_
  by_cases his : i = st.serverIndex
  · rw [his]
  · exact hport i (st.mem_clients.mpr ⟨hi, his⟩)

/-- **Registration yields the right directories**: whatever the addresses, and in whatever
order the clients register, when every `init` has returned, every node has an entry for each
node, with the address and port it listens on. -/
theorem registers (st : Startup) {order : List SizeT} {incoming : List (List Recv)}
    (hperm : order.Perm st.clients) (hin : List.Forall₂ st.Registers order incoming)
    {server : Network} {client : SizeT → Network} (h : st.Completed incoming server client) :
    st.Right server.dir ∧ ∀ i ∈ st.clients, st.Right (client i).dir := by
  obtain ⟨-, hport, hserver, hclient⟩ := h.knows hperm hin
  have hsame : ∀ i, i < st.numNodes → st.registered i = st.listensOn i :=
    fun i hi => registered_eq_of_port hport hi
  exact ⟨hserver.right_iff.mpr hsame, fun i hi => (hclient i hi).right_iff.mpr hsame⟩

/-! ### Registrations that complete -/

theorem exists_delivers (bytes : List UInt8) : ∃ rs, Delivers bytes rs := by
  refine ⟨stream 0 (bytes.map ([·])), 0, _, ⟨?_, ?_, ?_⟩, rfl⟩
  · induction bytes with
    | nil => rfl
    | cons b bytes ih => rw [List.map_cons, List.flatten_cons, ih, List.singleton_append]
  · intro c hc
    obtain ⟨b, -, rfl⟩ := List.mem_map.mp hc
    exact List.cons_ne_nil b []
  · intro c hc
    obtain ⟨b, -, rfl⟩ := List.mem_map.mp hc
    exact Nat.le_of_ble_eq_true rfl

theorem exists_incoming {order : List SizeT} (hperm : order.Perm st.clients) :
    ∃ incoming, List.Forall₂ st.Registers order incoming := by
  choose rs hrs using fun i => exists_delivers (wire (st.registerMsg i))
  refine ⟨order.map rs, ?_⟩
  refine List.forall₂_map_right_iff.mpr (List.forall₂_same.mpr fun i hi => ?_)
  obtain ⟨net, e, -, -⟩ := st.clientStart_spec (st.mem_clients.mp (hperm.mem_iff.mp hi)).1
  exact ⟨_, net, e, hrs i⟩

/-- With all clients on the server's port, and an `int` that counts, every `init` returns. -/
theorem completed_of_port_eq (hcounts : st.Counts) {order : List SizeT}
    {incoming : List (List Recv)} (hperm : order.Perm st.clients)
    (hin : List.Forall₂ st.Registers order incoming)
    (hport : ∀ i ∈ st.clients, st.port i = st.port st.serverIndex) :
    ∃ server client, st.Completed incoming server client := by
  obtain ⟨d', server, hwf, hknows', -, e⟩ := knows_server hcounts hperm hin
  choose rs hrs using fun i => exists_delivers (wire (st.directoryMsg d' i))
  have hfinish : ∀ i, ∃ client, i ∈ st.clients → ∃ out net, st.clientStart i = some (out, net) ∧
      net.clientFinish (rs i) = some client := by
    intro i
    by_cases hi : i ∈ st.clients
    · obtain ⟨net, ec, hidle, hdir⟩ := st.clientStart_spec (st.mem_clients.mp hi).1
      obtain ⟨client, ef, -⟩ := knows_client hcounts.1 hwf hknows' hidle hdir (hrs i)
      exact ⟨client, fun _ => ⟨_, net, ec, ef⟩⟩
    · exact ⟨server, fun hc => absurd hc hi⟩
  choose client hclient using hfinish
  refine ⟨server, client, _, e, fun i hi => ?_⟩
  obtain ⟨out, net, ec, ef⟩ := hclient i hi
  refine ⟨out, net, rs i, ec, ⟨_, hrs i, Or.inl ?_⟩, ef⟩
  rw [← registered_eq_of_port hport (st.mem_clients.mp hi).1]
  exact List.mem_map.mpr ⟨i, hi, rfl⟩

/-- **When every `init` can return.** -/
theorem completes_iff (st : Startup) {order : List SizeT} {incoming : List (List Recv)}
    (hperm : order.Perm st.clients) (hin : List.Forall₂ st.Registers order incoming) :
    (∃ server client, st.Completed incoming server client) ↔
      st.Counts ∧ ∀ i ∈ st.clients, st.port i = st.port st.serverIndex := by
  constructor
  · rintro ⟨server, client, h⟩
    obtain ⟨hcounts, hport, -⟩ := h.knows hperm hin
    exact ⟨hcounts, hport⟩
  · rintro ⟨hcounts, hport⟩
    exact completed_of_port_eq hcounts hperm hin hport

/-- The server on `127.0.0.1:8080` and a client on `127.0.0.2:8080`. -/
def twoNodes : Startup where
  inetPton s :=
    if s = text ['1', '2', '7', '.', '0', '.', '0', '.', '1'] then some 16777343
    else if s = text ['1', '2', '7', '.', '0', '.', '0', '.', '2'] then some 33554559
    else none
  numNodes := 2
  serverIndex := 0
  ip i :=
    if i = 0 then text ['1', '2', '7', '.', '0', '.', '0', '.', '1']
    else text ['1', '2', '7', '.', '0', '.', '0', '.', '2']
  port _ := 8080
  server_lt := by decide
  listens i _ := by
    by_cases hi : i = 0
    · subst hi
      decide
    · simp only [if_neg hi]
      decide
  port_lt _ _ := by decide

/-- There every `init` returns, and the client's directory has both nodes. -/
theorem registers_two : ∃ incoming server client, twoNodes.Completed incoming server client ∧
    twoNodes.Right server.dir ∧ twoNodes.Right (client 1).dir := by
  obtain ⟨incoming, hin⟩ := exists_incoming (List.Perm.refl twoNodes.clients)
  have hcounts : twoNodes.Counts := ⟨by decide, by decide⟩
  obtain ⟨server, client, h⟩ :=
    completed_of_port_eq hcounts (List.Perm.refl _) hin fun _ _ => rfl
  obtain ⟨hserver, hclient⟩ := registers twoNodes (List.Perm.refl _) hin h
  exact ⟨incoming, server, client, h, hserver, hclient 1 (by decide)⟩

end Startup

end Eau2
