import Eau2.Network.Sockets.Node

/-!
# The nodes and their connections

`network/network.h`, between nodes: `sendMsg` opens a connection, takes its place in the
target's accept queue, and only then takes `lock_`; with the lock it hands the bytes to `send`,
which returns when all but `buffered` of them have been read.  The receiver thread of the
target accepts one connection after the other, reads it to its end, and takes the `lock_` of
its own node to decode what it read.  The lines of both calls are those of
`Network/Shared.lean`; here they meet the connections.

A scheduler picks a thread, or lets a `read()` return.

* `Step`, `step_cases`: what a step can do, one constructor for each kind.
-/

namespace Eau2

namespace Sockets

open Pseudo (Op Role ThreadId)

/-- A connection, from `connect` on. -/
structure Conn where
  source : ThreadId
  target : SizeT
  /-- What was handed to `send`. -/
  sent : List UInt8
  /-- How many bytes of it were read. -/
  read : Nat
  /-- The sender has closed its end. -/
  closed : Bool
  deriving DecidableEq, Repr

/-- What was handed to `send` and is still to be read. -/
def Conn.unread (c : Conn) : List UInt8 := c.sent.drop c.read

/-- The connection behind a line of its sender's call. -/
def Conn.after (c : Conn) (call : Call) (out : List (Message × List UInt8)) : Conn :=
  { c with sent := c.sent ++ out.flatMap Prod.snd, closed := c.closed || call == .clearedAgain }

def received : Role → Call → RcvPc → RcvPc
  | .rcv, .decoded _ tmp, _ => .handling tmp
  | _, _, pc => pc

/-- The node behind a line of thread `r`'s call. -/
def Node.line (nd : Node) (r : Role) (network : SharedNet Role) : Node :=
  { nd with network := network, rcv := received r (nd.network.call r) nd.rcv }

/-- The node behind the `connect` of thread `r`. -/
def Node.connected (nd : Node) (r : Role) (msg : Message) (fd : Nat) : Node :=
  { nd with
    pending := Function.update nd.pending r none
    targetFd := Function.update nd.targetFd r fd
    network := nd.network.goto r (.connected msg) }

structure Cluster where
  nodes : SizeT → Node
  conns : Nat → Conn
  /-- So many connections were opened. -/
  opened : Nat

inductive Act
  /-- The thread executes its next line. -/
  | step (t : ThreadId)
  /-- `read()` returns on the connection that node `n`'s receiver thread has accepted. -/
  | read (n : SizeT) (r : Recv)
  deriving DecidableEq, Repr

namespace Cluster

def init (cfg : Config) : Cluster where
  nodes := Node.new cfg
  conns _ := ⟨(0, .app), 0, [], 0, false⟩
  opened := 0

def store (st : Cluster) (n : SizeT) (nd : Node) : Cluster :=
  { st with nodes := Function.update st.nodes n nd }

def setConn (st : Cluster) (fd : Nat) (c : Conn) : Cluster :=
  { st with conns := Function.update st.conns fd c }

def exit (st : Cluster) (n : SizeT) : Cluster := st.store n (st.nodes n).exit

def fd (st : Cluster) (t : ThreadId) : Nat := (st.nodes t.1).targetFd t.2

def conn (st : Cluster) (t : ThreadId) : Conn := st.conns (st.fd t)

def call (st : Cluster) (t : ThreadId) : Call := (st.nodes t.1).network.call t.2

def alive (st : Cluster) (n : SizeT) : Prop := (st.nodes n).ended = false

@[simp] theorem store_self (st : Cluster) (n : SizeT) (nd : Node) :
    (st.store n nd).nodes n = nd := Function.update_self _ _ _

theorem store_of_ne (st : Cluster) {n m : SizeT} (h : m ≠ n) (nd : Node) :
    (st.store n nd).nodes m = st.nodes m := Function.update_of_ne h _ _

theorem store_imp {st : Cluster} {n : SizeT} {nd : Node} {P : Node → Prop}
    (h : P (st.nodes n) → P nd) {m : SizeT} (hm : P (st.nodes m)) :
    P ((st.store n nd).nodes m) := by
  by_cases hmn : m = n
  · subst hmn
    rw [store_self]
    exact h hm
  · rwa [store_of_ne st hmn]

theorem of_store_imp {st : Cluster} {n : SizeT} {nd : Node} {P : Node → Prop}
    (h : P nd → P (st.nodes n)) {m : SizeT} (hm : P ((st.store n nd).nodes m)) :
    P (st.nodes m) := by
  by_cases hmn : m = n
  · subst hmn
    rw [store_self] at hm
    exact h hm
  · rwa [store_of_ne st hmn] at hm

theorem store_congr {st : Cluster} {n : SizeT} {nd : Node} {α : Type} (f : Node → α)
    (h : f nd = f (st.nodes n)) (m : SizeT) : f ((st.store n nd).nodes m) = f (st.nodes m) := by
  by_cases hm : m = n
  · subst hm
    rw [store_self]
    exact h
  · rw [store_of_ne st hm]

theorem store_thread_of_ne {st : Cluster} {u : ThreadId} {nd : Node} {α : Type}
    (f : Node → Role → α) {x : α} (h : f nd = Function.update (f (st.nodes u.1)) u.2 x)
    {t : ThreadId} (hut : t ≠ u) : f ((st.store u.1 nd).nodes t.1) t.2 = f (st.nodes t.1) t.2 := by
  by_cases h1 : t.1 = u.1
  · rw [h1, store_self, h]
    exact Function.update_of_ne (fun h2 => hut (Prod.ext h1 h2)) _ _
  · rw [store_of_ne st h1]

def queue (st : Cluster) (n : SizeT) (fd : Nat) : Cluster :=
  st.store n { st.nodes n with backlog := (st.nodes n).backlog ++ [fd] }

theorem queue_congr {st : Cluster} {n : SizeT} {fd : Nat} {α : Type} (f : Node → α)
    (h : ∀ nd : Node, f { nd with backlog := nd.backlog ++ [fd] } = f nd) (m : SizeT) :
    f ((st.queue n fd).nodes m) = f (st.nodes m) :=
  store_congr f (h _) m

/-- Thread `t`, in `sendMsg(msg)`, has a connection to the target. -/
def open_ (st : Cluster) (t : ThreadId) (msg : Message) : Cluster :=
  { (st.store t.1 ((st.nodes t.1).connected t.2 msg st.opened)).queue msg.target st.opened with
    conns := Function.update st.conns st.opened ⟨t, msg.target, [], 0, false⟩
    opened := st.opened + 1 }

/-- `sendMsg`, up to `connectToNode_`. -/
def connect (cfg : Config) (st : Cluster) (t : ThreadId) (msg : Message) : Cluster :=
  if ((st.nodes t.1).network.net.dir.getInfo msg.target).isSome ∧ msg.target < cfg.numNodes ∧
      (st.nodes msg.target).ended = false then st.open_ t msg
  else st.exit t.1

/-- Thread `t` is in `send`, and more bytes are to be read than the connection holds. -/
def Sending (cfg : Config) (st : Cluster) (t : ThreadId) : Prop :=
  st.call t = .sent ∧ cfg.buffered < (st.conn t).unread.length

instance (cfg : Config) (st : Cluster) (t : ThreadId) : Decidable (st.Sending cfg t) :=
  inferInstanceAs (Decidable (_ ∧ _))

/-- `send` has returned, and its result looks like an error (`crashIfError_`). -/
def SendFails (st : Cluster) (t : ThreadId) : Prop :=
  st.call t = .sent ∧ ¬ 0 ≤ Network.sendVal (st.conn t).sent.length

instance (st : Cluster) (t : ThreadId) : Decidable (st.SendFails t) :=
  inferInstanceAs (Decidable (_ ∧ _))

/-- The next line of thread `t`'s call of `sendMsg` or `receiveMsg`. -/
def line (cfg : Config) (st : Cluster) (t : ThreadId) : Option Cluster :=
  if st.Sending cfg t then
    -- `send` fails when the other end is gone
    if (st.nodes (st.conn t).target).ended then some (st.exit t.1) else none
  else if st.SendFails t then some (st.exit t.1)
  else do
    let (network, out) ← (st.nodes t.1).network.next t.2
    pure ((st.store t.1 ((st.nodes t.1).line t.2 network)).setConn (st.fd t)
      ((st.conn t).after (st.call t) out))

/-- The next step of thread `t`, outside its calls of the network. -/
def own (cfg : Config) (st : Cluster) (t : ThreadId) : Option Cluster :=
  match t.2 with
  | .app => (appStep cfg (st.nodes t.1)).map (st.store t.1)
  | .rcv =>
    if (st.nodes t.1).rcv = .receiving then
      match (st.nodes t.1).backlog with
      | [] => none
      | tmpFd :: backlog =>
        some (st.store t.1 { st.nodes t.1 with rcv := .reading tmpFd [], backlog := backlog })
    else (rcvStep cfg (st.nodes t.1)).map (st.store t.1)

def read (st : Cluster) (n : SizeT) (tmpFd : Nat) (rs : List Recv) : Recv → Option Cluster
  | .err =>
    -- errors are retried up to the first bytes, and then fatal
    if ∀ r ∈ rs, r = .err then
      some (st.store n { st.nodes n with rcv := .reading tmpFd (rs ++ [.err]) })
    else some (st.exit n)
  | .data bytes =>
    let c := st.conns tmpFd
    if bytes = [] then
      if (c.closed ∧ c.unread = []) ∨ (st.nodes c.source.1).ended then
        some (st.store n { st.nodes n with
          rcv := .decoding
          network := (st.nodes n).network.goto .rcv (.accepted (rs ++ [.data []])) })
      else none
    else if bytes <+: c.unread ∧ bytes.length ≤ 8192 then
      some ((st.store n { st.nodes n with rcv := .reading tmpFd (rs ++ [.data bytes]) }).setConn
        tmpFd { c with read := c.read + bytes.length })
    else none

end Cluster

open Cluster

def step (cfg : Config) (st : Cluster) : Act → Option Cluster
  | .step t =>
    if t.1 < cfg.numNodes ∧ (st.nodes t.1).ended = false then
      if st.call t = .idle then
        match (st.nodes t.1).pending t.2 with
        | some msg => some (st.connect cfg t msg)
        | none => st.own cfg t
      else st.line cfg t
    else none
  | .read n r =>
    if n < cfg.numNodes ∧ (st.nodes n).ended = false then
      match (st.nodes n).rcv with
      | .reading tmpFd rs => st.read n tmpFd rs r
      | _ => none
    else none

abbrev run (cfg : Config) (as : List Act) : Option Cluster :=
  Schedule.run (step cfg) (init cfg) as

/-! ### What a step can do -/

inductive Step (cfg : Config) (st : Cluster) : Act → Cluster → Prop
  /-- A step of a thread outside its calls of the network, or the end of the process. -/
  | own (a : Act) (n : SizeT) (nd : Node) : st.alive n → Apart (st.nodes n) nd →
      Step cfg st a (st.store n nd)
  | accept (n : SizeT) (tmpFd : Nat) (backlog : List Nat) : st.alive n →
      (st.nodes n).Accepting → (st.nodes n).backlog = tmpFd :: backlog →
      Step cfg st (.step (n, .rcv))
        (st.store n { st.nodes n with rcv := .reading tmpFd [], backlog := backlog })
  | opens (t : ThreadId) (msg : Message) : st.alive t.1 → st.call t = .idle →
      (st.nodes t.1).pending t.2 = some msg → Step cfg st (.step t) (st.open_ t msg)
  | line (t : ThreadId) (network : SharedNet Role) (out : List (Message × List UInt8)) :
      st.alive t.1 → st.call t ≠ .idle → (st.nodes t.1).network.next t.2 = some (network, out) →
      Step cfg st (.step t) ((st.store t.1 ((st.nodes t.1).line t.2 network)).setConn (st.fd t)
        ((st.conn t).after (st.call t) out))
  | read (n : SizeT) (r : Recv) (tmpFd : Nat) (rs : List Recv) (read : Nat) : st.alive n →
      (st.nodes n).rcv = .reading tmpFd rs → (st.conns tmpFd).read ≤ read →
      Step cfg st (.read n r) ((st.store n { st.nodes n with
        rcv := .reading tmpFd (rs ++ [r]) }).setConn tmpFd { st.conns tmpFd with read := read })
  | eof (n : SizeT) (tmpFd : Nat) (rs : List Recv) : st.alive n →
      (st.nodes n).rcv = .reading tmpFd rs →
      (st.conns tmpFd).closed = true ∨ ¬ st.alive (st.conns tmpFd).source.1 →
      Step cfg st (.read n (.data [])) (st.store n { st.nodes n with
        rcv := .decoding
        network := (st.nodes n).network.goto .rcv (.accepted (rs ++ [.data []])) })

theorem Step.exit {cfg : Config} {st : Cluster} (a : Act) {n : SizeT} (h : st.alive n) :
    Step cfg st a (st.exit n) :=
  .own a n _ h (Apart.exit _)

namespace Cluster

variable {cfg : Config} {st st' : Cluster}

theorem setConn_self (st : Cluster) (fd : Nat) : st.setConn fd (st.conns fd) = st := by
  rw [setConn, Function.update_eq_self]

theorem connect_cases {t : ThreadId} {msg : Message} (ha : st.alive t.1) (hc : st.call t = .idle)
    (hp : (st.nodes t.1).pending t.2 = some msg) : Step cfg st (.step t) (st.connect cfg t msg) := by
  rw [connect]
  split
  · exact .opens t msg ha hc hp
  · exact .exit _ ha

theorem line_cases {t : ThreadId} (ha : st.alive t.1) (hc : st.call t ≠ .idle)
    (h : st.line cfg t = some st') : Step cfg st (.step t) st' := by
  rw [line] at h
  split at h
  · obtain ⟨-, he⟩ := Option.ite_none_right_eq_some.mp h
    cases he
    exact .exit _ ha
  · split at h
    · cases h
      exact .exit _ ha
    · obtain ⟨⟨network, out⟩, hn, he⟩ := Option.bind_eq_some_iff.mp h
      cases he
      exact .line t network out ha hc hn

theorem own_cases {t : ThreadId} (ha : st.alive t.1) (hc : st.call t = .idle)
    (hp : (st.nodes t.1).pending t.2 = none) (h : st.own cfg t = some st') :
    Step cfg st (.step t) st' := by
  obtain ⟨n, role⟩ := t
  cases role with
  | app =>
    obtain ⟨nd, hs, rfl⟩ := Option.map_eq_some_iff.mp h
    exact .own _ n nd ha (appStep_apart hs)
  | rcv =>
    rw [own] at h
    dsimp only at h
    split at h
    · rename_i hr
      split at h
      · cases h
      · rename_i tmpFd backlog hb
        cases h
        exact .accept n tmpFd backlog ha ⟨hr, hp, hc⟩ hb
    · obtain ⟨nd, hs, rfl⟩ := Option.map_eq_some_iff.mp h
      exact .own _ n nd ha (rcvStep_apart hs)

theorem read_cases {n : SizeT} {tmpFd : Nat} {rs : List Recv} {r : Recv} (ha : st.alive n)
    (hr : (st.nodes n).rcv = .reading tmpFd rs) (h : st.read n tmpFd rs r = some st') :
    Step cfg st (.read n r) st' := by
  cases r with
  | err =>
    rw [read] at h
    split at h
    · cases h
      rw [← setConn_self (st.store n { st.nodes n with rcv := .reading tmpFd (rs ++ [.err]) }) tmpFd]
      exact .read n .err tmpFd rs _ ha hr le_rfl
    · cases h
      exact .exit _ ha
  | data bytes =>
    rw [read] at h
    dsimp only at h
    split at h
    · rename_i hb
      obtain ⟨hend, he⟩ := Option.ite_none_right_eq_some.mp h
      cases he
      subst hb
      exact .eof n tmpFd rs ha hr (hend.imp And.left (by simp [alive]))
    · obtain ⟨-, he⟩ := Option.ite_none_right_eq_some.mp h
      cases he
      exact .read n _ tmpFd rs _ ha hr (Nat.le_add_right _ _)

end Cluster

/-- **What a step can do.** -/
theorem step_cases {cfg : Config} {st st' : Cluster} {a : Act} (h : step cfg st a = some st') :
    Step cfg st a st' := by
  cases a with
  | step t =>
    obtain ⟨⟨-, ha⟩, h⟩ := Option.ite_none_right_eq_some.mp h
    split at h
    · rename_i hc
      split at h
      · rename_i msg hp
        cases h
        exact connect_cases ha hc hp
      · rename_i hp
        exact own_cases ha hc hp h
    · rename_i hc
      exact line_cases ha hc h
  | read n r =>
    obtain ⟨⟨-, ha⟩, h⟩ := Option.ite_none_right_eq_some.mp h
    split at h
    · rename_i tmpFd rs hr
      exact read_cases ha hr h
    · cases h

end Sockets

end Eau2
