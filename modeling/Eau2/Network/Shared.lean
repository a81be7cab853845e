import Eau2.Network.Wire
import Eau2.Base.Schedule

/-!
# One serializer, many threads

`network/network.h`, between the lines: the application thread and the receiver
thread of a node call `sendMsg` and `receiveMsg` at once, and both work on
`mySer_`.  Here every use of it is a step of its own, and `lock_` decides who may
take one.  Bytes reach a node only from what a `sendMsg` of some node handed to
`send`.

* `At`: what the serializer holds at each line behind `lock_.lock()`.
* `Inv`, `inv_step`, `inv_run`: a free lock guards a drained serializer, a taken
  one a serializer that is where its holder left it.
* `Line`, `next_line`: what a line can do to the calls and to the lock.
* `discipline`: **after every call the read end has caught up with the write
  end, and every message received is the one whose bytes came in.**
-/

namespace Eau2

open Bytes Serializer Tape

/-- Where a thread stands in `sendMsg` or `receiveMsg`: the last line it is done
with, and the locals that later lines read. -/
inductive Call
  | idle
  /-- `sendMsg`: connected to the target. -/
  | connected (msg : Message)
  | sendLocked (msg : Message)
  | cleared (msg : Message)
  | kindWritten (msg : Message)
  | serialized (msg : Message)
  /-- The bytes are handed to `send`. -/
  | sent
  | clearedAgain
  /-- `receiveMsg`: a connection, with what `read()` will return on it. -/
  | accepted (rs : List Recv)
  | collected (buffStr : Str)
  | receiveLocked (buffStr : Str)
  | appended (buffStr : Str)
  | kindRead (buffStr : Str) (type : MsgKind)
  | decoded (buffStr : Str) (tmp : Message)
  deriving DecidableEq, Repr

def Call.Locked : Call → Prop
  | idle | connected _ | accepted _ | collected _ => False
  | _ => True

def Call.Sends : Call → Prop
  | connected _ | sendLocked _ | cleared _ | kindWritten _ | serialized _ | sent
  | clearedAgain => True
  | _ => False

/-- A `Network` object with the threads that call it. -/
structure SharedNet (τ : Type) where
  net : Network
  /-- The thread that holds `lock_`. -/
  lock_ : Option τ
  call : τ → Call

/-- Several nodes, and what the calls of `sendMsg` handed to `send` so far, each
with its message. -/
structure Wires (ν τ : Type) where
  nodes : ν → SharedNet τ
  sent : List (Message × List UInt8)

inductive WireAct (ν τ : Type)
  /-- Thread `t` calls `sendMsg(msg)`, up to the connection. -/
  | sendMsg (n : ν) (t : τ) (msg : Message)
  /-- Thread `t` calls `receiveMsg` and accepts the bytes of `sent[i]`, which
  `read()` returns in `chunks` after some failed attempts. -/
  | receiveMsg (n : ν) (t : τ) (i retries : Nat) (chunks : List (List UInt8))
  /-- Thread `t` executes the next line of its call. -/
  | next (n : ν) (t : τ)
  /-- `dir_` changes, as by `handleRegisterMsg` and `handleDirectoryMsg`. -/
  | learn (n : ν) (dir : Directory)

/-- The messages that are sent are ones the constructors build. -/
def WireAct.Wf {ν τ : Type} : WireAct ν τ → Prop
  | sendMsg _ _ msg => msg.Wf
  | _ => True

instance (chunks : List (List UInt8)) (bytes : List UInt8) : Decidable (Network.Cuts chunks bytes) :=
  decidable_of_iff (chunks.flatten = bytes ∧ (∀ c ∈ chunks, c ≠ []) ∧ ∀ c ∈ chunks, c.length ≤ 8192)
    ⟨fun ⟨h₁, h₂, h₃⟩ => ⟨h₁, h₂, h₃⟩, fun ⟨h₁, h₂, h₃⟩ => ⟨h₁, h₂, h₃⟩⟩

namespace SharedNet

variable {τ : Type} [DecidableEq τ]

def new (dir : Directory) : SharedNet τ := ⟨Network.new dir, none, fun _ => .idle⟩

def goto (n : SharedNet τ) (t : τ) (c : Call) : SharedNet τ :=
  { n with call := Function.update n.call t c }

def use (n : SharedNet τ) (t : τ) {α : Type} (m : SerM α) (k : α → Call) : Option (SharedNet τ) := do
  let (a, ser) ← m n.net.mySer
  pure { n.goto t (k a) with net := { n.net with mySer := ser } }

def lock (n : SharedNet τ) (t : τ) (c : Call) : Option (SharedNet τ) :=
  if n.lock_ = none then some { n.goto t c with lock_ := some t } else none

def unlock (n : SharedNet τ) (t : τ) : SharedNet τ := { n.goto t .idle with lock_ := none }

/-- A line that hands nothing to `send`. -/
def quiet (n : Option (SharedNet τ)) : Option (SharedNet τ × List (Message × List UInt8)) :=
  n.map fun n => (n, [])

/-- The next line of thread `t`'s call, with what it hands to `send`.  `crashIfError_` behind
`send` is left out: a process that it ends takes no step any more. -/
def next (n : SharedNet τ) (t : τ) : Option (SharedNet τ × List (Message × List UInt8)) :=
  match n.call t with
  | .idle => none
  | .connected msg => quiet (n.lock t (.sendLocked msg))
  | .sendLocked msg => quiet (n.use t (modify clear) fun _ => .cleared msg)
  | .cleared msg => quiet (n.use t (writeMsgKind msg.kind) fun _ => .kindWritten msg)
  | .kindWritten msg => quiet (n.use t msg.serialize fun _ => .serialized msg)
  | .serialized msg => some (n.goto t .sent, [(msg, n.net.mySer.buffer)])
  | .sent => quiet (n.use t (modify clear) fun _ => .clearedAgain)
  | .clearedAgain => quiet (some (n.unlock t))
  | .accepted rs => quiet ((Network.readStrFromNet_ rs).map fun b => n.goto t (.collected b))
  | .collected b => quiet (n.lock t (.receiveLocked b))
  | .receiveLocked b => quiet (n.use t (writeBytes b) fun _ => .appended b)
  | .appended b => quiet (n.use t readMsgKind fun type => .kindRead b type)
  | .kindRead b type => quiet (n.use t (Message.deserialize type) fun tmp => .decoded b tmp)
  | .decoded _ _ => quiet (some (n.unlock t))

/-- The next line of thread `t`'s call is the one that gives the lock back. -/
def Returning (n : SharedNet τ) (t : τ) : Prop :=
  n.call t = .clearedAgain ∨ ∃ buffStr tmp, n.call t = .decoded buffStr tmp

def Blocked (n : SharedNet τ) (t : τ) : Prop :=
  n.lock_ ≠ none ∧ ((∃ msg, n.call t = .connected msg) ∨ ∃ buffStr, n.call t = .collected buffStr)

end SharedNet

namespace Wires

variable {ν τ : Type} [DecidableEq ν] [DecidableEq τ]

def new (dir : ν → Directory) : Wires ν τ := ⟨fun n => .new (dir n), []⟩

def store (w : Wires ν τ) (n : ν) (sh : SharedNet τ) : Wires ν τ :=
  { w with nodes := Function.update w.nodes n sh }

def step (w : Wires ν τ) : WireAct ν τ → Option (Wires ν τ)
  | .sendMsg n t msg =>
    if (w.nodes n).call t = .idle ∧ ((w.nodes n).net.dir.getInfo msg.target).isSome then
      some (w.store n ((w.nodes n).goto t (.connected msg)))
    else none
  | .receiveMsg n t i retries chunks =>
    match w.sent[i]? with
    | none => none
    | some (_, bytes) =>
      if (w.nodes n).call t = .idle ∧ Network.Cuts chunks bytes then
        some (w.store n ((w.nodes n).goto t (.accepted (Network.stream retries chunks))))
      else none
  | .next n t => do
    let (sh, out) ← (w.nodes n).next t
    pure { w.store n sh with sent := w.sent ++ out }
  | .learn n dir =>
    some (w.store n { w.nodes n with net := { (w.nodes n).net with dir := dir } })

end Wires

/-! ### Where the holder of the lock left the serializer -/

/-- What the serializer holds behind each line that is executed with the lock
taken. -/
def At : Call → Serializer → Prop
  | .sendLocked _, s => unread s = []
  | .cleared _, s => Tape.written s = []
  | .kindWritten msg, s => Tape.written s = kindBytes msg.kind
  | .serialized msg, s => Tape.written s = Network.wire msg
  | .clearedAgain, s => unread s = []
  | .receiveLocked _, s => unread s = []
  | .appended buffStr, s => unread s = buffStr
  | .kindRead buffStr type, s => ∀ msg : Message, msg.Wf → Network.wire msg = buffStr →
      type = msg.kind ∧ unread s = msg.bytes
  | .decoded buffStr tmp, s => unread s = [] ∧ ∀ msg : Message, msg.Wf →
      Network.wire msg = buffStr → tmp.Same msg
  | _, _ => True

/-- What a call carries: a message that can be sent, or bytes that were. -/
def Call.Carries (sent : List (Message × List UInt8)) : Call → Prop
  | connected msg | sendLocked msg | cleared msg | kindWritten msg | serialized msg => msg.Wf
  | accepted rs => ∃ p ∈ sent, ∃ retries chunks, Network.Cuts chunks p.2 ∧
      rs = Network.stream retries chunks
  | collected b | receiveLocked b | appended b | kindRead b _ | decoded b _ =>
      ∃ msg, (msg, b) ∈ sent
  | _ => True

theorem Call.Carries.mono {sent out : List (Message × List UInt8)} {c : Call}
    (h : c.Carries sent) : c.Carries (sent ++ out) := by
  cases c with
  | accepted rs =>
    obtain ⟨p, hp, hrs⟩ := h
    exact ⟨p, List.mem_append_left out hp, hrs⟩
  | collected b | receiveLocked b | appended b | kindRead b _ | decoded b _ =>
    obtain ⟨msg, hm⟩ := h
    exact ⟨msg, List.mem_append_left out hm⟩
  | _ => exact h

def Faithful (sent : List (Message × List UInt8)) : Prop :=
  ∀ p ∈ sent, p.1.Wf ∧ p.2 = Network.wire p.1

namespace SharedNet

variable {τ : Type} {n : SharedNet τ} {t : τ} {sent out : List (Message × List UInt8)}

/-- **A free lock guards a drained serializer, a taken one a serializer that is
where its holder left it.** -/
structure Inv (sent : List (Message × List UInt8)) (n : SharedNet τ) : Prop where
  sound : n.net.mySer.Sound
  drained : n.lock_ = none → unread n.net.mySer = []
  holder : ∀ t, (n.call t).Locked ↔ n.lock_ = some t
  place : ∀ t, At (n.call t) n.net.mySer
  carries : ∀ t, (n.call t).Carries sent

theorem inv_new (dir : Directory) : Inv [] (new dir : SharedNet τ) where
  sound := sound_new
  drained := fun _ => rfl
  holder := fun t => by simp [new, Call.Locked]
  place := fun t => trivial
  carries := fun t => trivial

theorem Inv.mono (h : n.Inv sent) : n.Inv (sent ++ out) :=
  ⟨h.sound, h.drained, h.holder, h.place, fun t => (h.carries t).mono⟩

theorem at_of_not_locked {c : Call} (h : ¬ c.Locked) (s : Serializer) : At c s := by
  cases c with
  | idle | connected _ | accepted _ | collected _ => trivial
  | _ => exact absurd trivial h

theorem Inv.alone (h : n.Inv sent) (hold : (n.call t).Locked) {u : τ} (hu : u ≠ t) :
    ¬ (n.call u).Locked := by
  intro hl
  have hut := (h.holder u).mp hl
  rw [(h.holder t).mp hold] at hut
  exact hu (Option.some.inj hut).symm

theorem Inv.read_eq (h : n.Inv sent) (hl : n.lock_ = none) :
    n.net.mySer.numBytesRead = n.net.mySer.numBytesWritten :=
  Network.Idle.read_eq ⟨h.sound, h.drained hl⟩

variable [DecidableEq τ]

/-- **One thread moves.** Its own line, the lock and the serializer have to fit
together again; the other threads are not in the lock, or nothing changes for
them. -/
theorem Inv.move (h : n.Inv sent) {c : Call} {ser : Serializer} {l : Option τ}
    (hs : ser.Sound) (hd : l = none → unread ser = []) (hmine : c.Locked ↔ l = some t)
    (hothers : ∀ u, u ≠ t → ((n.call u).Locked ↔ l = some u))
    (hat : At c ser) (hplace : ∀ u, u ≠ t → At (n.call u) ser) (hcarries : c.Carries sent) :
    Inv sent (⟨{ n.net with mySer := ser }, l, Function.update n.call t c⟩ : SharedNet τ) where
  sound := hs
  drained := hd
  holder := (Function.forall_update_iff n.call fun u c => (c.Locked ↔ l = some u)).mpr
    ⟨hmine, hothers⟩
  place := (Function.forall_update_iff n.call fun _ c => At c ser).mpr ⟨hat, hplace⟩
  carries := (Function.forall_update_iff n.call fun _ c => c.Carries sent).mpr
    ⟨hcarries, fun u _ => h.carries u⟩

theorem Inv.goto (h : n.Inv sent) {c : Call} (hold : ¬ (n.call t).Locked) (hc : ¬ c.Locked)
    (hcarries : c.Carries sent) : (n.goto t c).Inv sent := by
  have hno : ¬ n.lock_ = some t := fun he => hold ((h.holder t).mpr he)
  exact h.move h.sound h.drained (iff_of_false hc hno) (fun u _ => h.holder u)
    (at_of_not_locked hc _) (fun u _ => h.place u) hcarries

/-- **A line behind the lock**: only the holder can execute one. -/
theorem Inv.use (h : n.Inv sent) {c : Call} {ser : Serializer} (hold : (n.call t).Locked)
    (hc : c.Locked) (hs : ser.Sound) (hat : At c ser) (hcarries : c.Carries sent) :
    ({ n.goto t c with net := { n.net with mySer := ser } } : SharedNet τ).Inv sent := by
  have hlock : n.lock_ = some t := (h.holder t).mp hold
  refine h.move hs ?_ (iff_of_true hc hlock) (fun u _ => h.holder u) hat ?_ hcarries
  · intro he
    have he' : n.lock_ = none := he
    rw [hlock] at he'
    cases he'
  · intro u hu
    exact at_of_not_locked (h.alone hold hu) _

theorem Inv.lock (h : n.Inv sent) {c : Call} (hfree : n.lock_ = none) (hc : c.Locked)
    (hat : At c n.net.mySer) (hcarries : c.Carries sent) :
    ∃ n', n.lock t c = some n' ∧ n'.Inv sent := by
  refine ⟨_, if_pos hfree, h.move h.sound (fun he => by cases he) (iff_of_true hc rfl) ?_ hat
    (fun u _ => h.place u) hcarries⟩
  intro u hu
  have hno : ¬ (n.call u).Locked := by
    intro hl
    have hut := (h.holder u).mp hl
    rw [hfree] at hut
    cases hut
  exact iff_of_false hno fun he => hu (Option.some.inj he).symm

theorem Inv.unlock (h : n.Inv sent) (hold : (n.call t).Locked)
    (hd : unread n.net.mySer = []) : (n.unlock t).Inv sent := by
  refine h.move h.sound (fun _ => hd) (iff_of_false id (by intro he; cases he)) ?_ trivial
    (fun u _ => h.place u) trivial
  intro u hu
  exact iff_of_false (h.alone hold hu) (by intro he; cases he)

/-! ### The next line -/

theorem reads_kind {b : List UInt8} {ser : Serializer} (hu : unread ser = b) {msg : Message}
    (hb : Network.wire msg = b) : ∃ ser', readMsgKind ser = some (msg.kind, ser') ∧
      (ser.Sound → ser'.Sound) ∧ unread ser' = msg.bytes := by
  obtain ⟨ser', e, hs, -, hu'⟩ := reads_readMsgKind msg.kind ser msg.bytes (by rw [hu, ← hb]; rfl)
  exact ⟨ser', e, hs, hu'⟩

theorem reads_message {msg : Message} (hw : msg.Wf) {type : MsgKind} (htype : type = msg.kind)
    {ser : Serializer} (hu : unread ser = msg.bytes) : ∃ tmp ser',
      Message.deserialize type ser = some (tmp, ser') ∧ tmp.Same msg ∧
        (ser.Sound → ser'.Sound) ∧ unread ser' = [] := by
  obtain ⟨tmp, hr, hsame⟩ := Message.reads_deserialize hw
  obtain ⟨ser', e, hs, -, hu'⟩ := hr ser [] (by rw [hu, List.append_nil])
  subst htype
  exact ⟨tmp, ser', e, hsame, hs, hu'⟩

/-- Thread `t` executes its next line, and everything is in place again. -/
def Progress (sent : List (Message × List UInt8)) (n : SharedNet τ) (t : τ) : Prop :=
  ∃ n' out, n.next t = some (n', out) ∧ n'.Inv (sent ++ out) ∧ Faithful (sent ++ out)

theorem progress_quiet (hf : Faithful sent) {r : Option (SharedNet τ)}
    (hnext : n.next t = quiet r) (hr : ∃ n', r = some n' ∧ n'.Inv sent) : n.Progress sent t := by
  obtain ⟨n', rfl, hn'⟩ := hr
  exact ⟨n', [], hnext, hn'.mono, by rwa [List.append_nil]⟩

theorem Inv.progress_use (h : n.Inv sent) (hf : Faithful sent) (hl : (n.call t).Locked)
    {α : Type} {m : SerM α} {k : α → Call} (hnext : n.next t = quiet (n.use t m k))
    {a : α} {ser : Serializer} (e : m n.net.mySer = some (a, ser)) (hs : ser.Sound)
    (hk : (k a).Locked) (hat : At (k a) ser) (hcarries : (k a).Carries sent) :
    n.Progress sent t := by
  refine progress_quiet hf hnext ⟨_, ?_, h.use hl hk hs hat hcarries⟩
  rw [SharedNet.use, e]
  rfl

/-- **Every line can be executed, unless it waits for the lock, and the lines fit
together.** -/
theorem Inv.next (h : n.Inv sent) (hf : Faithful sent) (hc : n.call t ≠ .idle)
    (hb : ¬ n.Blocked t) : n.Progress sent t := by
  have hat := h.place t
  have hcar := h.carries t
  cases hcall : n.call t with
  | idle => exact absurd hcall hc
  | connected msg =>
    rw [hcall] at hcar
    have hfree : n.lock_ = none := by
      by_contra hne
      exact hb ⟨hne, Or.inl ⟨msg, hcall⟩⟩
    exact progress_quiet hf (by rw [SharedNet.next, hcall])
      (h.lock (c := .sendLocked msg) hfree trivial (h.drained hfree) hcar)
  | sendLocked msg =>
    have hl : (n.call t).Locked := by rw [hcall]; trivial
    rw [hcall] at hcar
    exact h.progress_use hf hl (k := fun _ => .cleared msg) (m := modify clear)
      (by rw [SharedNet.next, hcall]) rfl h.sound.clear trivial rfl hcar
  | cleared msg =>
    have hl : (n.call t).Locked := by rw [hcall]; trivial
    rw [hcall] at hcar hat
    obtain ⟨ser, e, hs, hw, -⟩ := writes_writeMsgKind msg.kind n.net.mySer h.sound
    have hk : Tape.written ser = kindBytes msg.kind := by
      rw [hw, show Tape.written n.net.mySer = [] from hat, List.nil_append]
    exact h.progress_use hf hl (k := fun _ => .kindWritten msg) (by rw [SharedNet.next, hcall])
      e hs trivial hk hcar
  | kindWritten msg =>
    have hl : (n.call t).Locked := by rw [hcall]; trivial
    rw [hcall] at hcar hat
    obtain ⟨ser, e, hs, hw, -⟩ := Message.writes_serialize hcar n.net.mySer h.sound
    have hk : Tape.written ser = Network.wire msg := by
      rw [hw, show Tape.written n.net.mySer = kindBytes msg.kind from hat]
      rfl
    exact h.progress_use hf hl (k := fun _ => .serialized msg) (by rw [SharedNet.next, hcall])
      e hs trivial hk hcar
  | serialized msg =>
    have hl : (n.call t).Locked := by rw [hcall]; trivial
    rw [hcall] at hcar hat
    refine ⟨n.goto t .sent, [(msg, n.net.mySer.buffer)], by rw [SharedNet.next, hcall], ?_, ?_⟩
    · exact (h.use hl (c := .sent) trivial h.sound trivial trivial).mono
    · intro p hp
      rcases List.mem_append.mp hp with hp | hp
      · exact hf p hp
      · cases List.mem_singleton.mp hp
        exact ⟨hcar, hat⟩
  | sent =>
    have hl : (n.call t).Locked := by rw [hcall]; trivial
    exact h.progress_use hf hl (k := fun _ => .clearedAgain) (m := modify clear)
      (by rw [SharedNet.next, hcall]) rfl h.sound.clear trivial rfl trivial
  | clearedAgain =>
    have hl : (n.call t).Locked := by rw [hcall]; trivial
    rw [hcall] at hat
    exact progress_quiet hf (by rw [SharedNet.next, hcall]) ⟨_, rfl, h.unlock hl hat⟩
  | accepted rs =>
    have hl : ¬ (n.call t).Locked := by rw [hcall]; exact id
    rw [hcall] at hcar
    obtain ⟨⟨msg, bytes⟩, hp, retries, chunks, hcuts, rfl⟩ := hcar
    refine progress_quiet hf (r := some (n.goto t (.collected bytes))) ?_
      ⟨_, rfl, h.goto hl id ⟨msg, hp⟩⟩
    rw [SharedNet.next, hcall]
    dsimp only
    rw [Network.readStrFromNet_spec hcuts]
    rfl
  | collected b =>
    rw [hcall] at hcar
    have hfree : n.lock_ = none := by
      by_contra hne
      exact hb ⟨hne, Or.inr ⟨b, hcall⟩⟩
    exact progress_quiet hf (by rw [SharedNet.next, hcall])
      (h.lock (c := .receiveLocked b) hfree trivial (h.drained hfree) hcar)
  | receiveLocked b =>
    have hl : (n.call t).Locked := by rw [hcall]; trivial
    rw [hcall] at hcar hat
    obtain ⟨ser, e, hs, -, hu⟩ := writes_add_ b n.net.mySer h.sound
    have hk : unread ser = b := by
      rw [hu, show unread n.net.mySer = [] from hat, List.nil_append]
    exact h.progress_use hf hl (k := fun _ => .appended b) (m := writeBytes b)
      (by rw [SharedNet.next, hcall]) e hs trivial hk hcar
  | appended b =>
    have hl : (n.call t).Locked := by rw [hcall]; trivial
    rw [hcall] at hcar hat
    obtain ⟨msg, hm⟩ := hcar
    obtain ⟨ser, e, hs, hu⟩ := reads_kind hat (hf _ hm).2.symm
    refine h.progress_use hf hl (k := fun type => .kindRead b type)
      (by rw [SharedNet.next, hcall]) e (hs h.sound) trivial ?_ ⟨msg, hm⟩
    -- any message with these bytes would have been read so far
    intro msg' hm' hb'
    obtain ⟨ser', e', -, hu'⟩ := reads_kind hat hb'
    obtain ⟨hkind, rfl⟩ := Prod.mk.inj (Option.some.inj (e.symm.trans e'))
    exact ⟨hkind, hu'⟩
  | kindRead b type =>
    have hl : (n.call t).Locked := by rw [hcall]; trivial
    rw [hcall] at hcar hat
    obtain ⟨msg, hm⟩ := hcar
    have hread := fun (msg : Message) (hw : msg.Wf) (hb : Network.wire msg = b) =>
      reads_message hw (hat msg hw hb).1 (hat msg hw hb).2
    obtain ⟨tmp, ser, e, -, hs, hu⟩ := hread msg (hf _ hm).1 (hf _ hm).2.symm
    refine h.progress_use hf hl (k := fun tmp => .decoded b tmp)
      (by rw [SharedNet.next, hcall]) e (hs h.sound) trivial ⟨hu, ?_⟩ ⟨msg, hm⟩
    intro msg' hw' hb'
    obtain ⟨tmp', ser', e', hsame, -, -⟩ := hread msg' hw' hb'
    rw [e] at e'
    cases e'
    exact hsame
  | decoded b tmp =>
    have hl : (n.call t).Locked := by rw [hcall]; trivial
    rw [hcall] at hat
    exact progress_quiet hf (by rw [SharedNet.next, hcall]) ⟨_, rfl, h.unlock hl hat.1⟩

theorem next_of_blocked (hb : n.Blocked t) : n.next t = none := by
  obtain ⟨hl, ⟨msg, hc⟩ | ⟨b, hc⟩⟩ := hb
  · rw [SharedNet.next, hc]
    exact congrArg quiet (if_neg hl)
  · rw [SharedNet.next, hc]
    exact congrArg quiet (if_neg hl)

theorem next_of_idle (hc : n.call t = .idle) : n.next t = none := by
  rw [SharedNet.next, hc]

theorem lock_of_returning (hr : n.Returning t) {n' : SharedNet τ} {out}
    (h : n.next t = some (n', out)) : n'.lock_ = none := by
  rcases hr with hc | ⟨b, tmp, hc⟩
  · rw [SharedNet.next, hc] at h
    cases h
    rfl
  · rw [SharedNet.next, hc] at h
    cases h
    rfl

/-! ### What a line does to the calls and to the lock -/

/-- What a line of thread `t` can do: the call and the lock behind it, and what it hands to
`send`. -/
inductive Line (n : SharedNet τ) (t : τ) : Call → Option τ → List (Message × List UInt8) → Prop
  | lock (c : Call) : c.Locked → (c.Sends → (n.call t).Sends) → c ≠ .sent →
      n.call t ≠ .clearedAgain → Line n t c (some t) []
  | stay (c : Call) : ((n.call t).Locked → c.Locked) → (c.Sends → (n.call t).Sends) → c ≠ .sent →
      n.call t ≠ .clearedAgain → Line n t c n.lock_ []
  | send (msg : Message) : n.call t = .serialized msg →
      Line n t .sent n.lock_ [(msg, n.net.mySer.buffer)]
  | unlock : Line n t .idle none []

omit [DecidableEq τ] in
theorem quiet_eq_some {r : Option (SharedNet τ)} {n' : SharedNet τ}
    {out : List (Message × List UInt8)} (h : quiet r = some (n', out)) : r = some n' ∧ out = [] := by
  obtain ⟨n₁, rfl, he⟩ := Option.map_eq_some_iff.mp h
  cases he
  exact ⟨rfl, rfl⟩

theorem lock_line {n' : SharedNet τ} {c : Call} (h : n.lock t c = some n') :
    n'.call = Function.update n.call t c ∧ n'.lock_ = some t := by
  obtain ⟨-, he⟩ := Option.ite_none_right_eq_some.mp h
  cases he
  exact ⟨rfl, rfl⟩

theorem use_line {n' : SharedNet τ} {α : Type} {m : SerM α} {k : α → Call}
    (h : n.use t m k = some n') :
    ∃ a, n'.call = Function.update n.call t (k a) ∧ n'.lock_ = n.lock_ := by
  obtain ⟨⟨a, ser⟩, -, he⟩ := Option.bind_eq_some_iff.mp h
  cases he
  exact ⟨a, rfl, rfl⟩

/-- **What a line does.** -/
theorem next_line {n' : SharedNet τ} (h : n.next t = some (n', out)) :
    ∃ c, n'.call = Function.update n.call t c ∧ n.Line t c n'.lock_ out := by
  -- a line that takes the lock
  have hlock : ∀ {c : Call}, quiet (n.lock t c) = some (n', out) → c.Locked →
      (c.Sends → (n.call t).Sends) → c ≠ .sent → n.call t ≠ .clearedAgain →
      ∃ c, n'.call = Function.update n.call t c ∧ n.Line t c n'.lock_ out := by
    intro c h hl hs hc ha
    obtain ⟨hq, rfl⟩ := quiet_eq_some h
    obtain ⟨hcall, hl'⟩ := lock_line hq
    exact ⟨c, hcall, by rw [hl']; exact .lock c hl hs hc ha⟩
  -- a line that works on the serializer
  have huse : ∀ {α : Type} {m : SerM α} {k : α → Call}, quiet (n.use t m k) = some (n', out) →
      (∀ a, (k a).Locked) → (∀ a, (k a).Sends → (n.call t).Sends) → (∀ a, k a ≠ .sent) →
      n.call t ≠ .clearedAgain →
      ∃ c, n'.call = Function.update n.call t c ∧ n.Line t c n'.lock_ out := by
    intro α m k h hl hs hc ha
    obtain ⟨hq, rfl⟩ := quiet_eq_some h
    obtain ⟨a, hcall, hl'⟩ := use_line hq
    exact ⟨k a, hcall, by rw [hl']; exact .stay _ (fun _ => hl a) (hs a) (hc a) ha⟩
  rw [SharedNet.next] at h
  cases hcall : n.call t with
  | idle =>
    rw [hcall] at h
    cases h
  | connected msg | collected buffStr =>
    rw [hcall] at h
    refine hlock h trivial ?_ ?_ ?_ <;> simp [hcall, Call.Sends]
  | sendLocked msg | cleared msg | kindWritten msg | sent | receiveLocked buffStr
  | appended buffStr | kindRead buffStr type =>
    rw [hcall] at h
    refine huse h (fun _ => trivial) ?_ ?_ ?_ <;> simp [hcall, Call.Sends]
  | serialized msg =>
    rw [hcall] at h
    cases h
    exact ⟨.sent, rfl, .send msg hcall⟩
  | accepted rs =>
    rw [hcall] at h
    obtain ⟨hq, rfl⟩ := quiet_eq_some h
    obtain ⟨b, -, rfl⟩ := Option.map_eq_some_iff.mp hq
    refine ⟨.collected b, rfl, .stay _ ?_ ?_ ?_ ?_⟩ <;> simp [hcall, Call.Sends, Call.Locked]
  | clearedAgain | decoded buffStr tmp =>
    rw [hcall] at h
    obtain ⟨hq, rfl⟩ := quiet_eq_some h
    cases hq
    exact ⟨.idle, rfl, .unlock⟩

omit [DecidableEq τ] in
/-- A thread in `sendMsg` was in it before, is not through, and is in `send` only if it has
just handed over its bytes. -/
theorem Line.of_sends {c : Call} {l : Option τ} (h : n.Line t c l out) (hs : c.Sends) :
    (n.call t).Sends ∧ n.call t ≠ .clearedAgain ∧
      (c = .sent → ∃ msg, n.call t = .serialized msg ∧ out = [(msg, n.net.mySer.buffer)]) := by
  cases h with
  | lock _ _ hsends hsent hne => exact ⟨hsends hs, hne, fun he => absurd he hsent⟩
  | stay _ _ hsends hsent hne => exact ⟨hsends hs, hne, fun he => absurd he hsent⟩
  | send msg hm =>
    refine ⟨?_, ?_, fun _ => ⟨msg, hm, rfl⟩⟩
    · rw [hm]
      trivial
    · rw [hm]
      exact Call.noConfusion
  | unlock => exact hs.elim

/-- Whoever holds the lock is behind it. -/
def Held (n : SharedNet τ) : Prop := ∀ u, n.lock_ = some u → (n.call u).Locked

theorem Held.next (h : n.Held) {n' : SharedNet τ} (hs : n.next t = some (n', out)) : n'.Held := by
  obtain ⟨c, hcall, hline⟩ := next_line hs
  intro u hu
  rw [hcall]
  rw [hu] at hline
  by_cases hut : u = t
  · subst hut
    rw [Function.update_self]
    generalize hl : some u = l at hline
    cases hline with
    | lock c hc => exact hc
    | stay c hc => exact hc (h u hl.symm)
    | send msg => trivial
    | unlock => cases hl
  · rw [Function.update_of_ne hut]
    generalize hl : some u = l at hline
    cases hline with
    | lock => exact absurd (Option.some.inj hl) hut
    | stay | send => exact h u hl.symm
    | unlock => cases hl

theorem Held.goto (h : n.Held) (ht : ¬ (n.call t).Locked) (c : Call) : (n.goto t c).Held := by
  intro u hu
  have hu' : n.lock_ = some u := hu
  have hut : u ≠ t := by
    rintro rfl
    exact ht (h u hu')
  show (Function.update n.call t c u).Locked
  rw [Function.update_of_ne hut]
  exact h u hu'

end SharedNet

/-! ### Runs -/

namespace Wires

variable {ν τ : Type}

/-- Every node is in place, and only messages were sent. -/
structure Inv (w : Wires ν τ) : Prop where
  node : ∀ n, (w.nodes n).Inv w.sent
  faithful : Faithful w.sent

theorem inv_new (dir : ν → Directory) : (new dir : Wires ν τ).Inv :=
  ⟨fun n => SharedNet.inv_new (dir n), fun p hp => by cases hp⟩

variable [DecidableEq ν]

theorem Inv.store {w : Wires ν τ} (h : w.Inv) {n : ν} {sh : SharedNet τ}
    {out : List (Message × List UInt8)} (hsh : sh.Inv (w.sent ++ out))
    (hf : Faithful (w.sent ++ out)) :
    ({ w.store n sh with sent := w.sent ++ out } : Wires ν τ).Inv :=
  ⟨(Function.forall_update_iff w.nodes fun _ n => n.Inv (w.sent ++ out)).mpr
    ⟨hsh, fun u _ => (h.node u).mono⟩, hf⟩

theorem Inv.store_quiet {w : Wires ν τ} (h : w.Inv) {n : ν} {sh : SharedNet τ}
    (hsh : sh.Inv w.sent) : (w.store n sh).Inv :=
  ⟨(Function.forall_update_iff w.nodes fun _ n => n.Inv w.sent).mpr
    ⟨hsh, fun u _ => h.node u⟩, h.faithful⟩

variable [DecidableEq τ]

/-- **Every step keeps every node in place.** -/
theorem inv_step {w w' : Wires ν τ} {a : WireAct ν τ} (h : w.Inv) (ha : a.Wf)
    (hs : w.step a = some w') : w'.Inv := by
  cases a with
  | sendMsg n t msg =>
    obtain ⟨⟨hidle, -⟩, he⟩ := Option.ite_none_right_eq_some.mp hs
    cases he
    refine h.store_quiet ((h.node n).goto ?_ id ha)
    rw [hidle]
    exact id
  | receiveMsg n t i retries chunks =>
    rw [step] at hs
    split at hs
    · cases hs
    · rename_i msg bytes hi
      obtain ⟨⟨hidle, hcuts⟩, he⟩ := Option.ite_none_right_eq_some.mp hs
      cases he
      refine h.store_quiet ((h.node n).goto ?_ id
        ⟨_, List.mem_of_getElem? hi, retries, chunks, hcuts, rfl⟩)
      rw [hidle]
      exact id
  | next n t =>
    obtain ⟨⟨sh, out⟩, hnext, he⟩ := Option.bind_eq_some_iff.mp hs
    cases he
    have hidle : (w.nodes n).call t ≠ .idle := by
      intro hc
      rw [SharedNet.next_of_idle hc] at hnext
      cases hnext
    have hblocked : ¬ (w.nodes n).Blocked t := by
      intro hb
      rw [SharedNet.next_of_blocked hb] at hnext
      cases hnext
    obtain ⟨sh', out', hnext', hinv, hf⟩ := (h.node n).next h.faithful hidle hblocked
    rw [hnext] at hnext'
    cases hnext'
    exact h.store hinv hf
  | learn n dir =>
    cases hs
    have hn := h.node n
    exact h.store_quiet ⟨hn.sound, hn.drained, hn.holder, hn.place, hn.carries⟩

/-- **Every run keeps every node in place.** -/
theorem inv_run {dir : ν → Directory} {as : List (WireAct ν τ)} {w : Wires ν τ}
    (hwf : ∀ a ∈ as, a.Wf) (h : Schedule.run step (new dir) as = some w) : w.Inv := by
  refine Schedule.run_induction (P := fun as w => (∀ a ∈ as, a.Wf) → w.Inv)
    (fun _ => inv_new dir) ?_ h hwf
  intro as w a w' _ ih hs hwf
  have hw := ih fun b hb => hwf b (List.mem_append_left _ hb)
  exact inv_step hw (hwf a (List.mem_append_right _ List.mem_cons_self)) hs

/-- **The shared serializer.** In every run of the threads of every node: where
the lock is free, and so behind every call that returns, the read end has caught
up with the write end; a message received is the one whose bytes came in over
the connection; and no call gets stuck except on the lock. -/
theorem discipline {dir : ν → Directory} {as : List (WireAct ν τ)} {w : Wires ν τ}
    (hwf : ∀ a ∈ as, a.Wf) (h : Schedule.run step (new dir) as = some w) (n : ν) :
    ((w.nodes n).lock_ = none →
      (w.nodes n).net.mySer.numBytesRead = (w.nodes n).net.mySer.numBytesWritten) ∧
    (∀ t w', (w.nodes n).Returning t → w.step (.next n t) = some w' →
      (w'.nodes n).net.mySer.numBytesRead = (w'.nodes n).net.mySer.numBytesWritten) ∧
    (∀ t buffStr tmp, (w.nodes n).call t = .decoded buffStr tmp →
      (∃ msg, (msg, buffStr) ∈ w.sent) ∧ ∀ msg, (msg, buffStr) ∈ w.sent → tmp.Same msg) ∧
    (∀ t, (w.nodes n).call t ≠ .idle → ¬ (w.nodes n).Blocked t →
      (w.step (.next n t)).isSome) := by
  have hinv := inv_run hwf h
  have hn := hinv.node n
  refine ⟨hn.read_eq, ?_, ?_, ?_⟩
  · intro t w' hr hs
    have hinv' := inv_step (a := .next n t) hinv trivial hs
    refine (hinv'.node n).read_eq ?_
    obtain ⟨⟨sh, out⟩, hnext, he⟩ := Option.bind_eq_some_iff.mp hs
    cases he
    show (Function.update w.nodes n sh n).lock_ = none
    rw [Function.update_self]
    exact SharedNet.lock_of_returning hr hnext
  · intro t b tmp hc
    have hcar := hn.carries t
    have hat := hn.place t
    rw [hc] at hcar hat
    refine ⟨hcar, fun msg hm => ?_⟩
    obtain ⟨hw, hb⟩ := hinv.faithful _ hm
    exact hat.2 msg hw hb.symm
  · intro t hidle hb
    obtain ⟨n', out, hnext, -, -⟩ := hn.next hinv.faithful hidle hb
    rw [step, hnext]
    rfl

/-- Node `false` sends a `DoneMsg`, and node `true` has decoded it. -/
theorem discipline_done : ∃ w, Schedule.run step
      (new fun _ => Directory.new.addInfo 1 ⟨2, 16777343, 36895⟩ : Wires Bool Unit)
      (.sendMsg false () (Message.doneMsg 0 1) :: (List.replicate 7 (.next false ()) ++
        .receiveMsg true () 0 1 [Network.wire (Message.doneMsg 0 1)] ::
        List.replicate 5 (.next true ()))) = some w ∧
    (w.nodes true).call () = .decoded (Network.wire (Message.doneMsg 0 1)) (Message.doneMsg 0 1) ∧
    ∀ w', w.step (.next true ()) = some w' →
      (w'.nodes true).net.mySer.numBytesRead = (w'.nodes true).net.mySer.numBytesWritten := by
  have hrun : (Schedule.run step
      (new fun _ => Directory.new.addInfo 1 ⟨2, 16777343, 36895⟩ : Wires Bool Unit)
      (.sendMsg false () (Message.doneMsg 0 1) :: (List.replicate 7 (.next false ()) ++
        .receiveMsg true () 0 1 [Network.wire (Message.doneMsg 0 1)] ::
        List.replicate 5 (.next true ())))).any (fun w => decide ((w.nodes true).call () =
          .decoded (Network.wire (Message.doneMsg 0 1)) (Message.doneMsg 0 1))) = true := by
    decide +kernel
  obtain ⟨w, hw, hcall⟩ := (Option.any_eq_true _ _).mp hrun
  have hcall := of_decide_eq_true hcall
  refine ⟨w, hw, hcall, fun w' hs => ?_⟩
  refine (discipline ?_ hw true).2.1 () w' (Or.inr ⟨_, _, hcall⟩) hs
  have hnext : ∀ (n : Bool) (k : Nat), ∀ a ∈ List.replicate k (.next n () : WireAct Bool Unit),
      a.Wf := by
    intro n k a ha
    rw [List.eq_of_mem_replicate ha]
    trivial
  refine List.forall_mem_cons.mpr ⟨⟨rfl, trivial⟩, List.forall_mem_append.mpr ⟨hnext false 7, ?_⟩⟩
  exact List.forall_mem_cons.mpr ⟨trivial, hnext true 5⟩

end Wires

end Eau2
