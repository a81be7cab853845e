import Eau2.Base.Schedule
import Eau2.Network.Pseudo.Node
import Mathlib.Logic.Function.Basic

/-!
# The nodes together

`network/pseudo/pseudonetwork.h`: every node may push to every node's queue, and
that is all they share.  A scheduler picks a node and one of its threads; the
thread takes one step, and the messages it sent go to the ends of their queues.
An assertion that fails ends the process, and with it every thread.

* `step_cases`: what a scheduled step has done to all the nodes.
* `Reachable.induction`: an invariant of the steps holds in every reachable state.
-/

namespace Eau2

namespace Pseudo

inductive Role
  | app
  | rcv
  deriving DecidableEq, Repr

abbrev ThreadId := SizeT × Role

structure Cluster where
  nodes : SizeT → Node
  /-- The assertion that ended the process. -/
  fault : Option Fault

namespace Cluster

def init : Cluster := ⟨Node.new, none⟩

end Cluster

def nodeStep (cfg : Config) (nd : Node) : Role → Option Outcome
  | .app => appStep cfg nd
  | .rcv => rcvStep cfg nd

def push (nodes : SizeT → Node) (out : List Message) : SizeT → Node := fun j =>
  { nodes j with queue := (nodes j).queue ++ out.filter fun m => m.target = j }

def step (cfg : Config) (st : Cluster) (t : ThreadId) : Option Cluster :=
  if st.fault = none ∧ t.1 < cfg.numNodes then
    match nodeStep cfg (st.nodes t.1) t.2 with
    | none => none
    | some (.error f) => some { st with fault := some f }
    | some (.ok (nd, out)) => some { st with nodes := push (Function.update st.nodes t.1 nd) out }
  else none

def sent (cfg : Config) (st : Cluster) (t : ThreadId) : List Message :=
  match nodeStep cfg (st.nodes t.1) t.2 with
  | some (.ok (_, out)) => out
  | _ => []

abbrev run (cfg : Config) (ts : List ThreadId) : Option Cluster :=
  Schedule.run (step cfg) Cluster.init ts

def Reachable (cfg : Config) (st : Cluster) : Prop := ∃ ts, run cfg ts = some st

/-- What a step of a thread can do to its node. -/
def NodeStep (cfg : Config) (nd : Node) : Role → Node → List Message → Prop
  | .app => AppStep cfg nd
  | .rcv => RcvStep cfg nd

theorem nodeStep_cases {cfg : Config} {nd nd' : Node} {r : Role} {out : List Message}
    (h : nodeStep cfg nd r = some (.ok (nd', out))) : NodeStep cfg nd r nd' out := by
  cases r with
  | app => exact appStep_cases h
  | rcv => exact rcvStep_cases h

/-- What a step that did not end the process has done. -/
structure Moved (cfg : Config) (st : Cluster) (t : ThreadId) (nd : Node) (out : List Message)
    (st' : Cluster) : Prop where
  lt : t.1 < cfg.numNodes
  ok : nodeStep cfg (st.nodes t.1) t.2 = some (.ok (nd, out))
  node : NodeStep cfg (st.nodes t.1) t.2 nd out
  sent : sent cfg st t = out
  nodes : st'.nodes = push (Function.update st.nodes t.1 nd) out
  alive : st.fault = none
  fault : st'.fault = none

/-- **A step either moves one node and pushes what it sent, or ends the process.** -/
theorem step_cases {cfg : Config} {st st' : Cluster} {t : ThreadId}
    (h : step cfg st t = some st') :
    (∃ nd out, Moved cfg st t nd out st') ∨
      ∃ f, nodeStep cfg (st.nodes t.1) t.2 = some (.error f) ∧
        st' = { st with fault := some f } := by
  rw [step] at h
  split at h
  · rename_i hc
    split at h
    · cases h
    · rename_i f he
      cases h
      exact Or.inr ⟨f, he, rfl⟩
    · rename_i nd out he
      cases h
      exact Or.inl ⟨nd, out, hc.2, he, nodeStep_cases he, by rw [sent, he], rfl, hc.1, hc.1⟩
  · cases h

theorem Reachable.induction {cfg : Config} {P : Cluster → Prop} (init : P Cluster.init)
    (next : ∀ st t st', P st → step cfg st t = some st' → P st') {st : Cluster}
    (h : Reachable cfg st) : P st := by
  obtain ⟨ts, hts⟩ := h
  exact Schedule.run_induction (P := fun _ st => P st) init
    (fun _ st t st' _ hp hs => next st t st' hp hs) hts

theorem Reachable.next {cfg : Config} {st st' : Cluster} (h : Reachable cfg st) {t : ThreadId}
    (hs : step cfg st t = some st') : Reachable cfg st' := by
  obtain ⟨ts, hts⟩ := h
  exact ⟨ts ++ [t], Schedule.run_snoc.mpr ⟨st, hts, hs⟩⟩

/-! ### The nodes after a step -/

def Node.push (nd : Node) (ms : List Message) : Node := { nd with queue := nd.queue ++ ms }

@[simp] theorem Node.push_kv (nd : Node) (ms : List Message) : (nd.push ms).kv = nd.kv := rfl
@[simp] theorem Node.push_app (nd : Node) (ms : List Message) : (nd.push ms).app = nd.app := rfl
@[simp] theorem Node.push_rcv (nd : Node) (ms : List Message) : (nd.push ms).rcv = nd.rcv := rfl
@[simp] theorem Node.push_results (nd : Node) (ms : List Message) :
    (nd.push ms).results = nd.results := rfl
@[simp] theorem Node.push_isNodeDone (nd : Node) (ms : List Message) :
    (nd.push ms).isNodeDone = nd.isNodeDone := rfl
@[simp] theorem Node.push_lockHeld (nd : Node) (ms : List Message) :
    (nd.push ms).lockHeld = nd.lockHeld := rfl
@[simp] theorem Node.push_queue (nd : Node) (ms : List Message) :
    (nd.push ms).queue = nd.queue ++ ms := rfl

def toNode (out : List Message) (j : SizeT) : List Message := out.filter fun m => m.target = j

theorem mem_toNode {out : List Message} {j : SizeT} {m : Message} :
    m ∈ toNode out j ↔ m ∈ out ∧ m.target = j := by
  rw [toNode, List.mem_filter, decide_eq_true_iff]

theorem Moved.self {cfg : Config} {st st' : Cluster} {t : ThreadId} {nd : Node}
    {out : List Message} (h : Moved cfg st t nd out st') :
    st'.nodes t.1 = nd.push (toNode out t.1) := by
  rw [h.nodes, push, Function.update_self]
  rfl

theorem Moved.other {cfg : Config} {st st' : Cluster} {t : ThreadId} {nd : Node}
    {out : List Message} (h : Moved cfg st t nd out st') {j : SizeT} (hj : j ≠ t.1) :
    st'.nodes j = (st.nodes j).push (toNode out j) := by
  rw [h.nodes, push, Function.update_of_ne hj]
  rfl

/-- What every node satisfies survives a step, if the moving node's step and a
push of what was sent keep it. -/
theorem Moved.forall {cfg : Config} {st st' : Cluster} {t : ThreadId} {nd : Node}
    {out : List Message} (h : Moved cfg st t nd out st') {P : SizeT → Node → Prop}
    (hst : ∀ j, P j (st.nodes j)) (hnd : P t.1 nd)
    (hpush : ∀ j nd', P j nd' → P j (nd'.push (toNode out j))) : ∀ j, P j (st'.nodes j) := by
  intro j
  by_cases hj : j = t.1
  · subst hj
    rw [h.self]
    exact hpush _ _ hnd
  · rw [h.other hj]
    exact hpush _ _ (hst j)

/-! ### Two nodes -/

/-- Node `0` waits for a key that node `1` puts. -/
def pairCfg : Config where
  numNodes := 2
  serverIndex := 0
  program i rs :=
    if rs = [] then
      if i = 0 then some (.getValue ⟨⟨[97], CStr.nulFree_a⟩, 1⟩ true)
      else some (.put ⟨⟨[97], CStr.nulFree_a⟩, 1⟩ ⟨[7]⟩)
    else none

/-- Node `0` asks before node `1` puts: the request is parked, and the put answers it. -/
def pairSchedule : List ThreadId :=
  [(0, .app), (0, .app), (1, .rcv), (1, .rcv), (1, .rcv), (1, .app), (1, .app), (1, .app),
    (0, .rcv), (0, .rcv), (0, .app)]

example : ((run pairCfg pairSchedule).map fun st => (st.nodes 0).results) = some [some ⟨[7]⟩] := by
  decide

end Pseudo

end Eau2
