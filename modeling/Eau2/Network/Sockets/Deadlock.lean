import Eau2.Base.Acyclic
import Eau2.Network.Sockets.Cluster

/-!
# Senders and receivers that wait for each other

`sendMsg` keeps `lock_` while `send` waits for the target's receiver thread; that thread needs
the `lock_` of its own node to decode what it has read, and sends replies itself.  So threads
can wait for each other in a circle.

A send of more bytes than a connection holds is *jammed* (`Jams`) while its connection is not
the next thing that the target's receiver thread turns to.

* `Inv`, `inv_step`: a connection that is not through is in the target's accept queue or being
  read, and jammed sends form no ring as long as no send closes one when it begins.
* `waits_acyclic`: **a circle of blocked threads takes a ring of jammed sends.**
* `no_wait_cycle`: **threads never block each other in a circle in a run in which no send
  closes a ring of jammed sends.**
* `cross_deadlock`: two nodes that put a short value and then a long one to each other.
-/

namespace Eau2

namespace Sockets

open Pseudo (Op Role ThreadId)
open Relation

/-- Thread `t` is blocked on `lock_` or on `send`, and waits for thread `u`. -/
inductive Waits (cfg : Config) (st : Cluster) : ThreadId → ThreadId → Prop
  /-- For the thread of its node that holds the lock. -/
  | lock (n : SizeT) (r u : Role) : st.alive n → (st.nodes n).network.Blocked r →
      (st.nodes n).network.lock_ = some u → Waits cfg st (n, r) (n, u)
  /-- For the receiver thread of the target. -/
  | send (t : ThreadId) : st.alive t.1 → st.Sending cfg t →
      Waits cfg st t ((st.conn t).target, .rcv)

/-! ### Jammed sends -/

/-- The receiver thread will turn to something else before connection `fd`: it is not in
`accept`, or another connection is first. -/
def Node.Behind (nd : Node) (fd : Nat) : Prop :=
  fd ∈ if nd.Accepting then nd.backlog.tail else nd.backlog

/-- A thread of node `n` is in a send to node `m` that takes more than the connection holds,
and the connection waits behind something else there. -/
def Jams (cfg : Config) (st : Cluster) (n m : SizeT) : Prop :=
  ∃ r, st.alive n ∧ st.Sending cfg (n, r) ∧ (st.conn (n, r)).target = m ∧
    (st.nodes m).Behind (st.fd (n, r))

/-- Thread `t` is about to begin a send that takes more than the connection holds. -/
def Starts (cfg : Config) (st : Cluster) (t : ThreadId) : Prop :=
  (∃ msg, st.call t = .serialized msg) ∧ cfg.buffered <
    (st.conn t).unread.length + (st.nodes t.1).network.net.mySer.buffer.length

/-- A send begins that is jammed at once, and a chain of jammed sends leads from its target
back to its own node. -/
def ClosesRing (cfg : Config) (st : Cluster) : Act → Prop
  | .step t => Starts cfg st t ∧ (st.nodes (st.conn t).target).Behind (st.fd t) ∧
      ReflTransGen (Jams cfg st) (st.conn t).target t.1
  | .read _ _ => False

/-! ### What holds of every node and every connection -/

/-- Connection `fd` is in the accept queue, or being read. -/
def Node.Reaches (nd : Node) (fd : Nat) : Prop :=
  fd ∈ nd.backlog ∨ ∃ rs, nd.rcv = .reading fd rs

/-- Whoever holds the lock is behind it, and a receiver thread that reads does nothing else. -/
structure Node.Inv (nd : Node) : Prop where
  held : nd.network.Held
  quiet : ∀ tmpFd rs, nd.rcv = .reading tmpFd rs →
    nd.pending .rcv = none ∧ nd.network.call .rcv = .idle

/-- The connection of a call of `sendMsg` is its thread's, is open, and is in the target's
accept queue or being read. -/
structure Live (st : Cluster) (t : ThreadId) : Prop where
  lt : st.fd t < st.opened
  source : (st.conn t).source = t
  closed : (st.conn t).closed = false
  reached : (st.nodes (st.conn t).target).Reaches (st.fd t)

structure Inv (cfg : Config) (st : Cluster) : Prop where
  node : ∀ n, (st.nodes n).Inv
  live : ∀ t, st.alive t.1 → (st.call t).Sends → Live st t
  acyclic : Acyclic (Jams cfg st)

theorem inv_init (cfg : Config) : Inv cfg (Cluster.init cfg) where
  node n := ⟨fun _ hl => (by cases hl), fun _ _ hr => (by cases hr)⟩
  live t _ hs := hs.elim
  acyclic := acyclic_of_empty fun n m ⟨r, _, hs, _⟩ => by cases hs.1

/-! ### A circle of blocked threads -/

theorem Waits.call_ne_idle {cfg : Config} {st : Cluster} {t u : ThreadId} (h : Waits cfg st t u) :
    st.call t ≠ .idle := by
  intro hc
  cases h with
  | lock n r u _ hb _ =>
    obtain ⟨-, ⟨msg, he⟩ | ⟨b, he⟩⟩ := hb
    all_goals
      rw [Cluster.call, he] at hc
      cases hc
  | send _ _ hs =>
    rw [hs.1] at hc
    cases hc

/-- A send whose receiver is blocked is jammed. -/
theorem Inv.jams {cfg : Config} {st : Cluster} (h : Inv cfg st) {t u : ThreadId}
    (ha : st.alive t.1) (hs : st.Sending cfg t) (hw : Waits cfg st ((st.conn t).target, .rcv) u) :
    Jams cfg st t.1 (st.conn t).target := by
  have hidle : (st.nodes (st.conn t).target).network.call .rcv ≠ .idle := hw.call_ne_idle
  have hsends : (st.call t).Sends := by
    rw [hs.1]
    trivial
  refine ⟨t.2, ha, hs, rfl, ?_⟩
  rw [Node.Behind, if_neg fun hacc => hidle hacc.2.2]
  rcases (h.live t ha hsends).reached with hb | ⟨rs, hr⟩
  · exact hb
  · exact absurd ((h.node _).quiet _ rs hr).2 hidle

/-- **A circle of blocked threads takes a ring of jammed sends.** -/
theorem Inv.waits_acyclic {cfg : Config} {st : Cluster} (h : Inv cfg st) :
    Acyclic (Waits cfg st) := by
  refine h.acyclic.of_map Prod.fst ?_
  intro t u htu hu
  obtain ⟨v, huv, -⟩ := TransGen.head'_iff.mp hu
  cases htu with
  | send _ ha hs => exact Or.inl (h.jams ha hs huv)
  | lock n r u ha hb hl =>
    refine Or.inr ⟨rfl, ?_⟩
    intro w huw hw
    obtain ⟨v, hwv, -⟩ := TransGen.head'_iff.mp hw
    cases huw with
    | send _ ha hs => exact h.jams ha hs hwv
    | lock _ _ u' _ hb' _ =>
      -- who holds the lock does not wait for it
      have hlocked := (h.node n).held u hl
      obtain ⟨-, ⟨msg, he⟩ | ⟨b, he⟩⟩ := hb'
      all_goals
        rw [he] at hlocked
        exact hlocked.elim

/-! ### What a step keeps -/

/-- What a step keeps of a thread that is in `sendMsg` behind it. -/
structure Frame (cfg : Config) (st : Cluster) (a : Act) (st' : Cluster) (t : ThreadId) :
    Prop where
  alive : st.alive t.1
  call : (st.call t).Sends
  sending : st'.Sending cfg t → st.Sending cfg t ∨ (a = .step t ∧ Starts cfg st t)
  fd : st'.fd t = st.fd t
  opened : st.opened ≤ st'.opened
  source : (st'.conn t).source = (st.conn t).source
  target : (st'.conn t).target = (st.conn t).target
  closed : (st'.conn t).closed = (st.conn t).closed
  reached : (st.nodes (st.conn t).target).Reaches (st.fd t) →
    (st'.nodes (st.conn t).target).Reaches (st.fd t)
  behind : (st'.nodes (st.conn t).target).Behind (st.fd t) →
    (st.nodes (st.conn t).target).Behind (st.fd t)

section

variable {cfg : Config} {st st' : Cluster} {a : Act} {t : ThreadId}

theorem Frame.live (h : Frame cfg st a st' t) (hl : Live st t) : Live st' t where
  lt := by
    rw [h.fd]
    exact lt_of_lt_of_le hl.lt h.opened
  source := h.source.trans hl.source
  closed := h.closed.trans hl.closed
  reached := by
    rw [h.target, h.fd]
    exact h.reached hl.reached

/-- A jammed send was jammed before, or has just begun. -/
theorem Frame.jams (h : Frame cfg st a st' t) (hs : st'.Sending cfg t)
    (hb : (st'.nodes (st'.conn t).target).Behind (st'.fd t)) :
    Jams cfg st t.1 (st'.conn t).target ∨ (a = .step t ∧ Starts cfg st t ∧
      (st.nodes (st.conn t).target).Behind (st.fd t)) := by
  rw [h.target, h.fd] at hb
  rw [h.target]
  rcases h.sending hs with hold | ⟨ha, hstart⟩
  · exact Or.inl ⟨t.2, h.alive, hold, rfl, h.behind hb⟩
  · exact Or.inr ⟨ha, hstart, h.behind hb⟩

/-- The same connection, with no more to be read. -/
structure Conn.Follows (c' c : Conn) : Prop where
  source : c'.source = c.source
  target : c'.target = c.target
  closed : c'.closed = c.closed
  unread : c'.unread.length ≤ c.unread.length

theorem Conn.Follows.refl (c : Conn) : c.Follows c := ⟨rfl, rfl, rfl, le_rfl⟩

theorem Frame.of_store {n : SizeT} {nd : Node} {conns : Nat → Conn}
    (hst' : st' = { st.store n nd with conns := conns }) (ha : st.alive n)
    (htf : nd.targetFd = (st.nodes n).targetFd)
    (hcall : t.1 = n → (nd.network.call t.2).Sends →
      nd.network.call t.2 = (st.nodes n).network.call t.2)
    (hbehind : ∀ fd, nd.Behind fd → (st.nodes n).Behind fd)
    (hreach : st.alive t.1 → (st.call t).Sends → (st.nodes n).Reaches (st.fd t) →
      nd.Reaches (st.fd t))
    (hconn : st.alive t.1 → (st.call t).Sends → (conns (st.fd t)).Follows (st.conn t))
    (halive : st'.alive t.1) (hs : (st'.call t).Sends) : Frame cfg st a st' t := by
  subst hst'
  have hfd : ({ st.store n nd with conns := conns } : Cluster).fd t = st.fd t :=
    congrFun (Cluster.store_congr Node.targetFd htf t.1) t.2
  have hct : ({ st.store n nd with conns := conns } : Cluster).conn t = conns (st.fd t) := by
    rw [Cluster.conn, hfd]
  have hc : ({ st.store n nd with conns := conns } : Cluster).call t = st.call t := by
    show ((st.store n nd).nodes t.1).network.call t.2 = _
    have hs' : (((st.store n nd).nodes t.1).network.call t.2).Sends := hs
    by_cases hn : t.1 = n
    · subst hn
      rw [Cluster.store_self] at hs' ⊢
      exact hcall rfl hs'
    · rw [Cluster.store_of_ne st hn]
      rfl
  have hold : st.alive t.1 :=
    Cluster.of_store_imp (P := fun nd => nd.ended = false) (fun _ => ha) halive
  rw [hc] at hs
  have hfollows := hconn hold hs
  rw [← hct] at hfollows
  refine ⟨hold, hs, ?_, hfd, le_rfl, hfollows.source, hfollows.target, hfollows.closed, ?_, ?_⟩
  · rintro ⟨hsent, hlt⟩
    rw [hc] at hsent
    exact Or.inl ⟨hsent, lt_of_lt_of_le hlt hfollows.unread⟩
  · exact Cluster.store_imp (P := fun nd => nd.Reaches (st.fd t)) (hreach hold hs)
  · exact Cluster.of_store_imp (P := fun nd => nd.Behind (st.fd t)) (hbehind _)

theorem Node.Behind.mono {nd nd' : Node} (hq : nd'.backlog = nd.backlog)
    (hacc : nd.Accepting → nd'.Accepting) {fd : Nat} (h : nd'.Behind fd) : nd.Behind fd := by
  rw [Node.Behind, hq] at h
  rw [Node.Behind]
  by_cases hnd : nd.Accepting
  · rw [if_pos (hacc hnd)] at h
    rw [if_pos hnd]
    exact h
  · rw [if_neg hnd]
    split at h
    · exact List.mem_of_mem_tail h
    · exact h

theorem Apart.reaches {nd nd' : Node} (h : Apart nd nd') {fd : Nat} (hr : nd.Reaches fd) :
    nd'.Reaches fd := by
  rcases hr with hb | ⟨rs, hr⟩
  · left
    rwa [h.backlog]
  · exact Or.inr ⟨rs, (h.reading fd rs).mpr hr⟩

theorem not_accepting_of_reading {nd : Node} {tmpFd : Nat} {rs : List Recv}
    (h : nd.rcv = .reading tmpFd rs) : ¬ nd.Accepting := by
  rintro ⟨hr, -⟩
  rw [h] at hr
  cases hr

theorem frame_own {n : SizeT} {nd : Node} (ha : st.alive n) (h : Apart (st.nodes n) nd)
    (halive : (st.store n nd).alive t.1) (hs : ((st.store n nd).call t).Sends) :
    Frame cfg st a (st.store n nd) t :=
  .of_store rfl ha h.targetFd (fun _ _ => congrFun h.call t.2)
    (fun _ => .mono h.backlog h.accepting) (fun _ _ => h.reaches)
    (fun _ _ => .refl _) halive hs

theorem frame_accept {n : SizeT} {tmpFd : Nat} {backlog : List Nat} (ha : st.alive n)
    (hacc : (st.nodes n).Accepting) (hb : (st.nodes n).backlog = tmpFd :: backlog)
    (hst' : st' = st.store n { st.nodes n with rcv := .reading tmpFd [], backlog := backlog })
    (halive : st'.alive t.1) (hs : (st'.call t).Sends) : Frame cfg st a st' t := by
  refine .of_store hst' ha rfl (fun _ _ => rfl) ?_ ?_ (fun _ _ => .refl _) halive hs
  · intro fd hfd
    rw [Node.Behind, if_neg (not_accepting_of_reading rfl)] at hfd
    rw [Node.Behind, if_pos hacc, hb]
    exact hfd
  · rintro - - (hfd | ⟨rs, hr⟩)
    · rw [hb] at hfd
      rcases List.mem_cons.mp hfd with rfl | hfd
      · exact Or.inr ⟨[], rfl⟩
      · exact Or.inl hfd
    · exact absurd hacc (not_accepting_of_reading hr)

theorem update_read_follows {conns : Nat → Conn} {tmpFd k : Nat} (hk : (conns tmpFd).read ≤ k)
    (fd : Nat) :
    (Function.update conns tmpFd { conns tmpFd with read := k } fd).Follows (conns fd) := by
  by_cases hfd : fd = tmpFd
  · subst hfd
    rw [Function.update_self]
    refine ⟨rfl, rfl, rfl, ?_⟩
    rw [Conn.unread, Conn.unread, List.length_drop, List.length_drop]
    exact Nat.sub_le_sub_left hk _
  · rw [Function.update_of_ne hfd]
    exact .refl _

theorem frame_read {n : SizeT} {tmpFd k : Nat} {rs rs' : List Recv} (ha : st.alive n)
    (hr : (st.nodes n).rcv = .reading tmpFd rs) (hk : (st.conns tmpFd).read ≤ k)
    (hst' : st' = (st.store n { st.nodes n with rcv := .reading tmpFd rs' }).setConn tmpFd
      { st.conns tmpFd with read := k })
    (halive : st'.alive t.1) (hs : (st'.call t).Sends) : Frame cfg st a st' t := by
  refine .of_store hst' ha rfl (fun _ _ => rfl) ?_ ?_ (fun _ _ => update_read_follows hk _)
    halive hs
  · intro fd hfd
    rw [Node.Behind, if_neg (not_accepting_of_reading rfl)] at hfd
    rw [Node.Behind, if_neg (not_accepting_of_reading hr)]
    exact hfd
  · rintro - - (hfd | ⟨rs₁, hr₁⟩)
    · exact Or.inl hfd
    · rw [hr] at hr₁
      cases hr₁
      exact Or.inr ⟨rs', rfl⟩

theorem frame_eof (hinv : Inv cfg st) {n : SizeT} {tmpFd : Nat} {rs rs' : List Recv}
    (ha : st.alive n) (hr : (st.nodes n).rcv = .reading tmpFd rs)
    (hend : (st.conns tmpFd).closed = true ∨ ¬ st.alive (st.conns tmpFd).source.1)
    (hst' : st' = st.store n { st.nodes n with
      rcv := .decoding
      network := (st.nodes n).network.goto .rcv (.accepted rs') })
    (halive : st'.alive t.1) (hs : (st'.call t).Sends) : Frame cfg st a st' t := by
  refine .of_store hst' ha rfl ?_ ?_ ?_ (fun _ _ => .refl _) halive hs
  · obtain ⟨k, r⟩ := t
    rintro - hsends
    cases r with
    | app => rfl
    | rcv => exact hsends.elim
  · intro fd hfd
    rw [Node.Behind, if_neg (by rintro ⟨he, -⟩; cases he)] at hfd
    rw [Node.Behind, if_neg (not_accepting_of_reading hr)]
    exact hfd
  · rintro hlive hsends (hfd | ⟨rs₁, hr₁⟩)
    · exact Or.inl hfd
    · rw [hr] at hr₁
      cases hr₁
      have hl := hinv.live t hlive hsends
      have hsource : (st.conns (st.fd t)).source = t := hl.source
      rcases hend with hclosed | hgone
      · exact absurd (hclosed.symm.trans hl.closed) (by decide)
      · rw [hsource] at hgone
        exact absurd hlive hgone

/-! ### The lines of a call -/

theorem Node.line_rcv {nd : Node} {r : Role} (network : SharedNet Role)
    (hidle : nd.network.call .rcv = .idle) (hr : nd.network.call r ≠ .idle) :
    r = .app ∧ (nd.line r network).rcv = nd.rcv := by
  cases r with
  | app => exact ⟨rfl, rfl⟩
  | rcv => exact absurd hidle hr

section

variable {nd : Node} {r : Role} {network : SharedNet Role} {out : List (Message × List UInt8)}
  {fd : Nat}

theorem Node.Inv.line_reaches (h : nd.Inv) (hc : nd.network.call r ≠ .idle) (hr : nd.Reaches fd) :
    (nd.line r network).Reaches fd := by
  rcases hr with hb | ⟨rs, hr⟩
  · exact Or.inl hb
  · refine Or.inr ⟨rs, ?_⟩
    rw [(Node.line_rcv network (h.quiet fd rs hr).2 hc).2]
    exact hr

theorem Node.line_behind (hc : nd.network.call r ≠ .idle)
    (hn : nd.network.next r = some (network, out)) (hb : (nd.line r network).Behind fd) :
    nd.Behind fd := by
  have hq : (nd.line r network).backlog = nd.backlog := rfl
  refine .mono hq ?_ hb
  rintro ⟨hrcv, hpend, hidle⟩
  obtain ⟨rfl, he⟩ := Node.line_rcv network hidle hc
  obtain ⟨c, hcall, -⟩ := SharedNet.next_line hn
  refine ⟨he.trans hrcv, hpend, ?_⟩
  show network.call .rcv = .idle
  rw [hcall]
  exact hidle

end

theorem after_eq {n : SharedNet Role} {r : Role} {c : Call} {l : Option Role}
    {out : List (Message × List UInt8)} (h : n.Line r c l out) (hs : ¬ (n.call r).Sends)
    (conn : Conn) : conn.after (n.call r) out = conn := by
  have hclosed : (n.call r == .clearedAgain) = false := by
    refine beq_eq_false_iff_ne.mpr ?_
    intro he
    rw [he] at hs
    exact hs trivial
  have hout : out = [] := by
    cases h with
    | send msg hm =>
      rw [hm] at hs
      exact absurd trivial hs
    | _ => rfl
  subst hout
  simp [Conn.after, hclosed]

theorem frame_line_other (hinv : Inv cfg st) {u : ThreadId} {network : SharedNet Role}
    {out : List (Message × List UInt8)} (ha : st.alive u.1) (hc : st.call u ≠ .idle)
    (hn : (st.nodes u.1).network.next u.2 = some (network, out))
    (hst' : st' = (st.store u.1 ((st.nodes u.1).line u.2 network)).setConn (st.fd u)
      ((st.conn u).after (st.call u) out)) (hut : t ≠ u)
    (halive : st'.alive t.1) (hs : (st'.call t).Sends) : Frame cfg st a st' t := by
  obtain ⟨c, hcall, hline⟩ := SharedNet.next_line hn
  refine .of_store hst' ha rfl ?_ (fun _ => Node.line_behind hc hn)
    (fun _ _ => (hinv.node u.1).line_reaches hc) ?_ halive hs
  · intro h1 _
    show network.call t.2 = _
    rw [hcall]
    exact Function.update_of_ne (fun h2 => hut (Prod.ext h1 h2)) _ _
  · intro hold hsends
    by_cases hu : (st.call u).Sends
    · -- the connections of two calls are two connections
      have hfd : st.fd t ≠ st.fd u := by
        intro he
        have htu : (st.conn t).source = (st.conn u).source :=
          congrArg (fun fd => (st.conns fd).source) he
        rw [(hinv.live t hold hsends).source, (hinv.live u ha hu).source] at htu
        exact hut htu
      show (Function.update st.conns (st.fd u) _ (st.fd t)).Follows _
      rw [Function.update_of_ne hfd]
      exact .refl _
    · show (Function.update st.conns (st.fd u) _ (st.fd t)).Follows _
      rw [show (st.conn u).after (st.call u) out = st.conns (st.fd u) from after_eq hline hu _,
        Function.update_eq_self]
      exact .refl _

theorem frame_line_self (hinv : Inv cfg st) {network : SharedNet Role}
    {out : List (Message × List UInt8)} (ha : st.alive t.1) (hc : st.call t ≠ .idle)
    (hn : (st.nodes t.1).network.next t.2 = some (network, out))
    (hst' : st' = (st.store t.1 ((st.nodes t.1).line t.2 network)).setConn (st.fd t)
      ((st.conn t).after (st.call t) out))
    (hs : (st'.call t).Sends) : Frame cfg st (.step t) st' t := by
  obtain ⟨c, hcall, hline⟩ := SharedNet.next_line hn
  subst hst'
  have hct : ((st.store t.1 ((st.nodes t.1).line t.2 network)).setConn (st.fd t)
      ((st.conn t).after (st.call t) out)).call t = c := by
    show ((st.store t.1 _).nodes t.1).network.call t.2 = c
    rw [Cluster.store_self]
    show network.call t.2 = c
    rw [hcall, Function.update_self]
  have hfd : ((st.store t.1 ((st.nodes t.1).line t.2 network)).setConn (st.fd t)
      ((st.conn t).after (st.call t) out)).fd t = st.fd t := by
    show ((st.store t.1 _).nodes t.1).targetFd t.2 = _
    rw [Cluster.store_self]
    rfl
  have hconn : ((st.store t.1 ((st.nodes t.1).line t.2 network)).setConn (st.fd t)
      ((st.conn t).after (st.call t) out)).conn t = (st.conn t).after (st.call t) out := by
    rw [Cluster.conn, hfd]
    exact Function.update_self _ _ _
  rw [hct] at hs
  obtain ⟨hsends, hne, hsent⟩ := hline.of_sends hs
  refine ⟨ha, hsends, ?_, hfd, le_rfl, by rw [hconn]; rfl, by rw [hconn]; rfl, ?_, ?_, ?_⟩
  · rintro ⟨hc', hlt⟩
    rw [hct] at hc'
    rw [hconn] at hlt
    obtain ⟨msg, hm, rfl⟩ := hsent hc'
    refine Or.inr ⟨rfl, ⟨msg, hm⟩, lt_of_lt_of_le hlt ?_⟩
    simp only [Conn.unread, Conn.after, List.flatMap_cons, List.flatMap_nil, List.append_nil,
      List.length_drop, List.length_append]
    omega
  · have hopen : (st.call t == .clearedAgain) = false := beq_eq_false_iff_ne.mpr hne
    rw [hconn, Conn.after, hopen, Bool.or_false]
  · exact Cluster.store_imp (P := fun nd => nd.Reaches (st.fd t))
      ((hinv.node t.1).line_reaches hc)
  · exact Cluster.of_store_imp (P := fun nd => nd.Behind (st.fd t)) (Node.line_behind hc hn)

/-! ### A new connection -/

theorem Node.Behind.of_queue {nd : Node} {fd fd' : Nat} (hne : fd ≠ fd')
    (h : ({ nd with backlog := nd.backlog ++ [fd'] } : Node).Behind fd) : nd.Behind fd := by
  have hacc : ({ nd with backlog := nd.backlog ++ [fd'] } : Node).Accepting ↔ nd.Accepting :=
    Iff.rfl
  have hmem : ∀ {l : List Nat}, fd ∈ l ++ [fd'] → fd ∈ l := by
    intro l hm
    rcases List.mem_append.mp hm with hm | hm
    · exact hm
    · exact absurd (List.mem_singleton.mp hm) hne
  rw [Node.Behind, if_congr hacc rfl rfl] at h
  rw [Node.Behind]
  split at h
  · rename_i hnd
    rw [if_pos hnd]
    cases hb : nd.backlog with
    | nil =>
      rw [hb] at h
      cases h
    | cons first backlog =>
      rw [hb] at h
      exact hmem h
  · rename_i hnd
    rw [if_neg hnd]
    exact hmem h

theorem Node.Behind.of_connected {nd : Node} {r : Role} {msg msg' : Message} {fd fd' : Nat}
    (hp : nd.pending r = some msg') (h : (nd.connected r msg fd').Behind fd) : nd.Behind fd := by
  have hq : (nd.connected r msg fd').backlog = nd.backlog := rfl
  refine .mono hq ?_ h
  rintro ⟨hrcv, hpend, hidle⟩
  cases r with
  | app => exact ⟨hrcv, hpend, hidle⟩
  | rcv =>
    rw [hp] at hpend
    cases hpend

theorem open_call_of_ne {u : ThreadId} (msg : Message) (hut : t ≠ u) :
    (st.open_ u msg).call t = st.call t := by
  refine (Cluster.queue_congr (fun nd => nd.network.call t.2) (fun _ => rfl) t.1).trans ?_
  exact Cluster.store_thread_of_ne (fun nd => nd.network.call) (x := .connected msg) rfl hut

theorem open_fd_of_ne {u : ThreadId} (msg : Message) (hut : t ≠ u) :
    (st.open_ u msg).fd t = st.fd t := by
  refine (Cluster.queue_congr (fun nd => nd.targetFd t.2) (fun _ => rfl) t.1).trans ?_
  exact Cluster.store_thread_of_ne Node.targetFd (x := st.opened) rfl hut

theorem frame_open_other (hinv : Inv cfg st) {u : ThreadId} {msg : Message}
    (ha : st.alive u.1) (hp : (st.nodes u.1).pending u.2 = some msg) (hut : t ≠ u)
    (halive : (st.open_ u msg).alive t.1) (hs : ((st.open_ u msg).call t).Sends) :
    Frame cfg st a (st.open_ u msg) t := by
  have hold : st.alive t.1 := by
    have halive' : ((st.open_ u msg).nodes t.1).ended = false := halive
    rw [Cluster.open_, Cluster.queue_congr Node.ended (fun _ => rfl)] at halive'
    exact Cluster.of_store_imp (P := fun nd => nd.ended = false) (fun _ => ha) halive'
  rw [open_call_of_ne msg hut] at hs
  have hfd : (st.open_ u msg).fd t = st.fd t := open_fd_of_ne msg hut
  have hne : st.fd t ≠ st.opened := (hinv.live t hold hs).lt.ne
  have hconn : (st.open_ u msg).conn t = st.conn t := by
    rw [Cluster.conn, hfd]
    exact Function.update_of_ne hne _ _
  refine ⟨hold, hs, ?_, hfd, Nat.le_succ _, by rw [hconn], by rw [hconn], by rw [hconn], ?_, ?_⟩
  · rintro ⟨hsent, hlt⟩
    rw [open_call_of_ne msg hut] at hsent
    rw [hconn] at hlt
    exact Or.inl ⟨hsent, hlt⟩
  · intro hr
    have hlinked : ((st.store u.1 ((st.nodes u.1).connected u.2 msg st.opened)).nodes
        (st.conn t).target).Reaches (st.fd t) := by
      refine Cluster.store_imp (P := fun nd => nd.Reaches (st.fd t)) ?_ hr
      exact fun h => h
    refine Cluster.store_imp (P := fun nd => nd.Reaches (st.fd t)) ?_ hlinked
    exact Or.imp_left (List.mem_append_left _)
  · intro hb
    exact Cluster.of_store_imp (P := fun nd => nd.Behind (st.fd t)) (.of_connected hp)
      (Cluster.of_store_imp (P := fun nd => nd.Behind (st.fd t)) (.of_queue hne) hb)

theorem live_open (msg : Message) : Live (st.open_ t msg) t ∧ ¬ (st.open_ t msg).Sending cfg t := by
  have hfd : (st.open_ t msg).fd t = st.opened := by
    refine (Cluster.queue_congr (fun nd => nd.targetFd t.2) (fun _ => rfl) t.1).trans ?_
    rw [Cluster.store_self]
    exact Function.update_self _ _ _
  have hcall : (st.open_ t msg).call t = .connected msg := by
    refine (Cluster.queue_congr (fun nd => nd.network.call t.2) (fun _ => rfl) t.1).trans ?_
    rw [Cluster.store_self]
    exact Function.update_self _ _ _
  have hconn : (st.open_ t msg).conn t = ⟨t, msg.target, [], 0, false⟩ := by
    rw [Cluster.conn, hfd]
    exact Function.update_self _ _ _
  refine ⟨⟨?_, by rw [hconn], by rw [hconn], ?_⟩, ?_⟩
  · rw [hfd]
    exact Nat.lt_succ_self _
  · rw [hconn, hfd]
    refine Or.inl ?_
    show st.opened ∈ (Cluster.nodes (Cluster.store _ msg.target _) msg.target).backlog
    rw [Cluster.store_self]
    exact List.mem_append_right _ List.mem_cons_self
  · rintro ⟨hsent, -⟩
    rw [hcall] at hsent
    cases hsent

/-! ### Every step keeps it -/

/-- A thread that is in `sendMsg` behind a step was in it before, or has just connected. -/
theorem step_frame (hinv : Inv cfg st) (h : Step cfg st a st') (halive : st'.alive t.1)
    (hs : (st'.call t).Sends) :
    Frame cfg st a st' t ∨ (Live st' t ∧ ¬ st'.Sending cfg t) := by
  cases h with
  | own _ n nd ha hap => exact Or.inl (frame_own ha hap halive hs)
  | accept n tmpFd backlog ha hacc hb => exact Or.inl (frame_accept ha hacc hb rfl halive hs)
  | opens u msg ha _ hp =>
    by_cases hut : t = u
    · subst hut
      exact Or.inr (live_open msg)
    · exact Or.inl (frame_open_other hinv ha hp hut halive hs)
  | line u network out ha hc hn =>
    by_cases hut : t = u
    · subst hut
      exact Or.inl (frame_line_self hinv ha hc hn rfl hs)
    · exact Or.inl (frame_line_other hinv ha hc hn rfl hut halive hs)
  | read n r tmpFd rs k ha hr hk => exact Or.inl (frame_read ha hr hk rfl halive hs)
  | eof n tmpFd rs ha hr hend => exact Or.inl (frame_eof hinv ha hr hend rfl halive hs)

/-- **A jammed send was jammed before, or this step began it.** -/
theorem jams_step (hinv : Inv cfg st) (h : Step cfg st a st') {n m : SizeT}
    (hj : Jams cfg st' n m) : Jams cfg st n m ∨ ∃ t, a = .step t ∧ Starts cfg st t ∧
      (st.nodes (st.conn t).target).Behind (st.fd t) ∧ n = t.1 ∧ m = (st.conn t).target := by
  obtain ⟨r, ha, hs, rfl, hb⟩ := hj
  have hsends : (st'.call (n, r)).Sends := by
    rw [hs.1]
    trivial
  rcases step_frame hinv h ha hsends with hf | ⟨-, hno⟩
  · rcases hf.jams hs hb with hold | ⟨ha', hstart, hbehind⟩
    · exact Or.inl hold
    · exact Or.inr ⟨(n, r), ha', hstart, hbehind, rfl, hf.target⟩
  · exact absurd hs hno

/-- A step closes no ring of jammed sends, unless a send closes one when it begins. -/
theorem acyclic_step (hinv : Inv cfg st) (h : Step cfg st a st') (hc : ¬ ClosesRing cfg st a) :
    Acyclic (Jams cfg st') := by
  by_cases hstarts : ∃ t, a = .step t ∧ Starts cfg st t ∧
      (st.nodes (st.conn t).target).Behind (st.fd t)
  · obtain ⟨t, rfl, hstart, hbehind⟩ := hstarts
    refine hinv.acyclic.insert (x := t.1) (y := (st.conn t).target) ?_ ?_
    · exact fun hback => hc ⟨hstart, hbehind, hback⟩
    · intro n m hj
      rcases jams_step hinv h hj with hold | ⟨u, hu, -, -, hn, hm⟩
      · exact Or.inl hold
      · cases hu
        exact Or.inr ⟨hn, hm⟩
  · refine hinv.acyclic.mono ?_
    intro n m hj
    rcases jams_step hinv h hj with hold | ⟨t, ha, hstart, hbehind, -, -⟩
    · exact hold
    · exact absurd ⟨t, ha, hstart, hbehind⟩ hstarts

theorem Apart.inv {nd nd' : Node} (h : Apart nd nd') (hi : nd.Inv) : nd'.Inv where
  held u hu := by
    rw [h.lock] at hu
    rw [h.call]
    exact hi.held u hu
  quiet tmpFd rs hr := by
    have hr' := (h.reading tmpFd rs).mp hr
    rw [h.pending tmpFd rs hr', h.call]
    exact hi.quiet tmpFd rs hr'

theorem Node.Inv.connected {nd : Node} (h : nd.Inv) {r : Role} {msg : Message} {fd : Nat}
    (hc : nd.network.call r = .idle) (hp : nd.pending r = some msg) :
    (nd.connected r msg fd).Inv where
  held := h.held.goto (by rw [hc]; exact id) _
  quiet tmpFd rs hr := by
    obtain ⟨hpend, hidle⟩ := h.quiet tmpFd rs hr
    cases r with
    | app => exact ⟨hpend, hidle⟩
    | rcv =>
      rw [hp] at hpend
      cases hpend

theorem Node.Inv.line {nd : Node} (h : nd.Inv) {r : Role} {network : SharedNet Role}
    {out : List (Message × List UInt8)} (hc : nd.network.call r ≠ .idle)
    (hn : nd.network.next r = some (network, out)) : (nd.line r network).Inv where
  held := h.held.next hn
  quiet tmpFd rs hr := by
    have hrcv : nd.rcv = .reading tmpFd rs := by
      have hr' : received r (nd.network.call r) nd.rcv = .reading tmpFd rs := hr
      rw [received.eq_def] at hr'
      split at hr'
      · cases hr'
      · exact hr'
    obtain ⟨hpend, hidle⟩ := h.quiet tmpFd rs hrcv
    obtain ⟨rfl, -⟩ := Node.line_rcv network hidle hc
    obtain ⟨c, hcall, -⟩ := SharedNet.next_line hn
    refine ⟨hpend, ?_⟩
    show network.call .rcv = .idle
    rw [hcall]
    exact hidle

theorem node_step (hinv : Inv cfg st) (h : Step cfg st a st') (m : SizeT) : (st'.nodes m).Inv := by
  cases h with
  | own _ n nd ha hap =>
    exact Cluster.store_imp (P := Node.Inv) hap.inv (hinv.node m)
  | accept n tmpFd backlog ha hacc hb =>
    refine Cluster.store_imp (P := Node.Inv) ?_ (hinv.node m)
    exact fun hi => ⟨hi.held, fun _ _ _ => hacc.2⟩
  | opens u msg ha hc hp =>
    refine Cluster.store_imp (P := Node.Inv) ?_ ?_
    · exact fun hi => ⟨hi.held, hi.quiet⟩
    · exact Cluster.store_imp (P := Node.Inv) (fun hi => hi.connected hc hp) (hinv.node m)
  | line u network out ha hc hn =>
    exact Cluster.store_imp (P := Node.Inv) (fun hi => hi.line hc hn) (hinv.node m)
  | read n r tmpFd rs k ha hr hk =>
    refine Cluster.store_imp (P := Node.Inv) ?_ (hinv.node m)
    exact fun hi => ⟨hi.held, fun _ _ _ => hi.quiet tmpFd rs hr⟩
  | eof n tmpFd rs ha hr hend =>
    refine Cluster.store_imp (P := Node.Inv) ?_ (hinv.node m)
    intro hi
    refine ⟨hi.held.goto ?_ _, fun _ _ he => (by cases he)⟩
    rw [(hi.quiet tmpFd rs hr).2]
    exact id

/-- **Every step keeps it, unless it begins a send that closes a ring.** -/
theorem inv_step (hinv : Inv cfg st) (hs : step cfg st a = some st')
    (hc : ¬ ClosesRing cfg st a) : Inv cfg st' := by
  have h := step_cases hs
  refine ⟨node_step hinv h, ?_, acyclic_step hinv h hc⟩
  intro t ha hsends
  rcases step_frame hinv h ha hsends with hf | ⟨hl, -⟩
  · exact hf.live (hinv.live t hf.alive hf.call)
  · exact hl

end

/-- **Every run in which no send closes a ring keeps it.** -/
theorem inv_run {cfg : Config} {as : List Act} {st : Cluster} (h : run cfg as = some st)
    (hc : ∀ as₁ a st₁, as₁ ++ [a] <+: as → run cfg as₁ = some st₁ → ¬ ClosesRing cfg st₁ a) :
    Inv cfg st := by
  refine Schedule.run_induction
    (P := fun as st => (∀ as₁ a st₁, as₁ ++ [a] <+: as → run cfg as₁ = some st₁ →
      ¬ ClosesRing cfg st₁ a) → Inv cfg st) (fun _ => inv_init cfg) ?_ h hc
  intro as st a st' hr ih hs hc
  have hst := ih fun as₁ b st₁ hpre => hc as₁ b st₁ (hpre.trans (List.prefix_append as [a]))
  exact inv_step hst hs (hc as a st (List.prefix_refl _) hr)

/-- **No deadlock.** For any number of nodes, any applications, values of any size, any
capacity of the connections, and however the threads are interleaved: in a run in which no
send of more than a connection holds begins while it would be jammed and a chain of jammed
sends leads from its target back to its own node, threads never block each other in a circle. -/
theorem no_wait_cycle {cfg : Config} {as : List Act} {st : Cluster} (h : run cfg as = some st)
    (hc : ∀ as₁ a st₁, as₁ ++ [a] <+: as → run cfg as₁ = some st₁ → ¬ ClosesRing cfg st₁ a) :
    ∀ t, ¬ TransGen (Waits cfg st) t t :=
  (inv_run h hc).waits_acyclic

/-! ### Two nodes -/

def pairDir : Directory :=
  (Directory.new.addInfo 0 ⟨2, 16777343, 36895⟩).addInfo 1 ⟨2, 33554559, 36895⟩

/-- The other one of two nodes puts this for node `i`. -/
def crossPut (i : SizeT) (data : Value) : Op := .put ⟨⟨[97], CStr.nulFree_a⟩, i⟩ data

/-- Each of two nodes puts a short value and then a long one to the other. -/
def crossCfg : Config where
  numNodes := 2
  serverIndex := 0
  program i rs :=
    if rs.length = 0 then some (crossPut (1 - i) ⟨[7]⟩)
    else if rs.length = 1 then some (crossPut (1 - i) ⟨List.replicate 100 7⟩)
    else none
  dir _ := pairDir
  buffered := 80

/-- The bytes of node `i`'s short message. -/
def crossBytes (i : SizeT) : Str :=
  Network.wire (Message.putMsg ⟨⟨[97], CStr.nulFree_a⟩, 1 - i⟩ ⟨[7]⟩ i (1 - i))

/-- Node `i`'s receiver thread takes the short message of the other node, up to the lock. -/
def crossReceive (i : SizeT) : List Act :=
  [.step (i, .rcv), .read i (.data (crossBytes (1 - i))), .read i (.data []), .step (i, .rcv)]

/-- Both applications are through with the short value and in the long `send`, and the
receiver threads have the short messages. -/
def crossRun : List Act :=
  List.replicate 19 (.step (0, .app)) ++ List.replicate 19 (.step (1, .app)) ++
    (crossReceive 0 ++ crossReceive 1)

/-- The short message is received and dealt with before the long one is sent. -/
def calmRun : List Act :=
  List.replicate 11 (.step (0, .app)) ++
    (.step (1, .rcv) :: .read 1 (.data (crossBytes 0)) :: .read 1 (.data []) ::
      List.replicate 9 (.step (1, .rcv))) ++ List.replicate 8 (.step (0, .app))

/-- The thread's connection, if any, waits behind nothing. -/
def Prompt (st : Cluster) : Act → Prop
  | .step t => ¬ (st.nodes (st.conn t).target).Behind (st.fd t)
  | .read _ _ => True

instance (nd : Node) (fd : Nat) : Decidable (nd.Behind fd) :=
  inferInstanceAs (Decidable (fd ∈ ite _ _ _))

instance (st : Cluster) (a : Act) : Decidable (Prompt st a) :=
  match a with
  | .step _ => inferInstanceAs (Decidable (¬ _))
  | .read _ _ => inferInstanceAs (Decidable True)

def isPrompt (st : Cluster) (a : Act) : Bool := decide (Prompt st a)

theorem Prompt.not_closesRing {cfg : Config} {st : Cluster} {a : Act} (h : Prompt st a) :
    ¬ ClosesRing cfg st a := by
  cases a with
  | step t => exact fun hc => h hc.2.1
  | read n r => exact id

/-- The long `send` blocks, and nobody waits in a circle. -/
theorem no_wait_cycle_calm : ∃ st, run crossCfg calmRun = some st ∧
    st.Sending crossCfg (0, .app) ∧ ∀ t, ¬ TransGen (Waits crossCfg st) t t := by
  have hrun : (run crossCfg calmRun).any (fun st => decide (st.Sending crossCfg (0, .app))) =
      true := by
    decide +kernel
  have hprompt : Schedule.always (step crossCfg) isPrompt (Cluster.init crossCfg) calmRun =
      true := by
    decide +kernel
  obtain ⟨st, hst, hs⟩ := (Option.any_eq_true _ _).mp hrun
  refine ⟨st, hst, of_decide_eq_true hs, no_wait_cycle hst ?_⟩
  intro as₁ a st₁ hpre hr
  have hp : isPrompt st₁ a = true := Schedule.of_always hprompt hpre hr
  exact (of_decide_eq_true hp).not_closesRing

/-- Node `i`'s application is in a `send` to node `j`, and its receiver thread waits for the
lock. -/
def Facing (cfg : Config) (st : Cluster) (i j : SizeT) (buffStr : Str) : Prop :=
  st.alive i ∧ st.Sending cfg (i, .app) ∧ (st.conn (i, .app)).target = j ∧
    (st.nodes i).network.lock_ = some .app ∧ st.call (i, .rcv) = .collected buffStr

instance (cfg : Config) (st : Cluster) (i j : SizeT) (buffStr : Str) :
    Decidable (Facing cfg st i j buffStr) :=
  inferInstanceAs (Decidable ((_ : Bool) = false ∧ _ ∧ _ ∧ _ ∧ _))

theorem Facing.waits {cfg : Config} {st : Cluster} {i j : SizeT} {buffStr : Str}
    (h : Facing cfg st i j buffStr) :
    Waits cfg st (i, .rcv) (i, .app) ∧ Waits cfg st (i, .app) (j, .rcv) := by
  obtain ⟨ha, hs, rfl, hl, hc⟩ := h
  refine ⟨.lock i .rcv .app ha ⟨?_, Or.inr ⟨buffStr, hc⟩⟩ hl, .send (i, .app) ha hs⟩
  rw [hl]
  exact Option.some_ne_none _

/-- **Two nodes in a deadlock**: each application is in a `send` that waits for the other's
receiver thread, and each receiver thread waits for the lock that its application holds. -/
theorem cross_deadlock : ∃ st, run crossCfg crossRun = some st ∧
    TransGen (Waits crossCfg st) (0, .app) (0, .app) := by
  have hrun : (run crossCfg crossRun).any (fun st =>
      decide (Facing crossCfg st 0 1 (crossBytes 1) ∧ Facing crossCfg st 1 0 (crossBytes 0))) =
        true := by
    decide +kernel
  obtain ⟨st, hst, hf⟩ := (Option.any_eq_true _ _).mp hrun
  obtain ⟨h0, h1⟩ := of_decide_eq_true hf
  refine ⟨st, hst, ?_⟩
  exact .head h0.waits.2 (.head h1.waits.1 (.head h1.waits.2 (.single h0.waits.1)))

end Sockets

end Eau2
