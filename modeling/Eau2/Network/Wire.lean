import Eau2.Network.Message

/-!
# The wire

`network/network.h`: one serializer per node serves both directions.  `sendMsg`
clears it, writes the kind and then the message, hands the bytes to `send` and
clears it again; `receiveMsg` collects the bytes of one connection in a
`StrBuff`, appends them to the same serializer and reads the message back.
Nothing is cleared on the receiving side, so the next message is found behind
the last one only because every message consumes exactly its own bytes.

What `read()` hands over is a list of results (`Recv`): errors, chunks, and the
empty chunk that ends the stream.

* `readStrFromNet_spec`: the chunks come back glued together, however the stream
  was cut.
* `Reachable.idle`: a node between two messages has nothing unread.
* `receiveMsg_sendMsg`: **a message goes over the wire as long as an `int` can count its
  bytes, and the entries of its directory**.
-/

namespace Eau2

open Bytes Serializer Tape

/-- The part of a `Network` that sending and receiving use. -/
structure Network where
  mySer : Serializer
  dir : Directory
  deriving DecidableEq, Repr

/-- One return of `read()`. -/
inductive Recv
  | err
  | data (bytes : List UInt8)
  deriving DecidableEq, Repr

namespace Network

def new (dir : Directory) : Network := ⟨Serializer.new, dir⟩

/-- What `sendMsg` puts into the cleared serializer. -/
def frame (msg : Message) : SerM Unit := do
  modify Serializer.clear
  writeMsgKind msg.kind
  msg.serialize

/-- `int sendVal`: the low 32 bits of what `send` returns, with their sign. -/
def sendVal (n : Nat) : Int := (BitVec.ofNat 32 n).toInt

/-- `sendMsg`: the address it connects to and the bytes it hands to `send`, which transmits
them all; `crashIfError_` ends the process where `sendVal` is negative. -/
def sendMsg (net : Network) (msg : Message) : Option ((NodeInfo × List UInt8) × Network) := do
  let targetInfo ← net.dir.getInfo msg.target
  let ((), ser) ← frame msg net.mySer
  if 0 ≤ sendVal ser.numBytesWritten then
    pure ((targetInfo, ser.buffer), { net with mySer := ser.clear })
  else none

/-- The second loop of `readStrFromNet_`, up to the end of the stream. -/
def readRest : StrBuff → List Recv → Option Str
  | _, [] => none
  | _, .err :: _ => none
  | buff, .data bytes :: rs =>
    if bytes = [] then (buff.get).map Prod.fst
    else do
      let buff ← buff.cBytes bytes
      readRest buff rs

/-- `readStrFromNet_`: errors are retried up to the first bytes, and then fatal. -/
def readStrFromNet_ : List Recv → Option Str
  | .err :: rs => readStrFromNet_ rs
  | rs => readRest StrBuff.new rs

/-- `receiveMsg`, given what `read()` returns on the accepted connection. -/
def receiveMsg (net : Network) (rs : List Recv) : Option (Message × Network) := do
  let buffStr ← readStrFromNet_ rs
  let (m, ser) ← (do
    writeBytes buffStr
    let type ← readMsgKind
    Message.deserialize type : SerM Message) net.mySer
  pure (m, { net with mySer := ser })

/-- The bytes of a message on the wire: the kind, and the serialized message. -/
def wire (msg : Message) : List UInt8 := kindBytes msg.kind ++ msg.bytes

/-- `chunks` cuts `bytes` into what `read()` may return: non-empty pieces of at
most 8192 bytes. -/
structure Cuts (chunks : List (List UInt8)) (bytes : List UInt8) : Prop where
  join : chunks.flatten = bytes
  ne_nil : ∀ c ∈ chunks, c ≠ []
  le_buffLen : ∀ c ∈ chunks, c.length ≤ 8192

/-- What `read()` returns for these chunks, after some failed attempts. -/
def stream (retries : Nat) (chunks : List (List UInt8)) : List Recv :=
  List.replicate retries .err ++ (chunks.map .data ++ [.data []])

/-! ### Collecting the chunks -/

theorem readRest_spec {buff : StrBuff} (hb : buff.Fits) {chunks : List (List UInt8)}
    (hc : ∀ c ∈ chunks, c ≠ []) :
    readRest buff (chunks.map .data ++ [.data []]) = some (buff.val ++ chunks.flatten) := by
  induction chunks generalizing buff with
  | nil =>
    obtain ⟨b', e, -, -⟩ := StrBuff.get_spec hb
    rw [List.map_nil, List.nil_append, readRest, if_pos rfl, e, List.flatten_nil, List.append_nil]
    rfl
  | cons c chunks ih =>
    obtain ⟨b', e, hb', hv⟩ := StrBuff.cBytes_spec hb c
    have hrest := ih hb' fun c' hc' => hc c' (List.mem_cons_of_mem c hc')
    rw [List.map_cons, List.cons_append, readRest, if_neg (hc c List.mem_cons_self), e,
      List.flatten_cons, ← List.append_assoc, ← hv]
    exact hrest

/-- **However the stream is cut, the pieces come back glued together.** -/
theorem readStrFromNet_spec {chunks : List (List UInt8)} {bytes : List UInt8}
    (h : Cuts chunks bytes) (retries : Nat) :
    readStrFromNet_ (stream retries chunks) = some bytes := by
  induction retries with
  | zero =>
    have hr := readRest_spec StrBuff.fits_new h.ne_nil
    rw [h.join] at hr
    cases chunks with
    | nil => exact hr
    | cons c chunks => exact hr
  | succ n ih => exact ih

/-! ### Sending -/

/-- **What `send` returns passes for an error from `2 ^ 31` bytes on**, up to `2 ^ 32`. -/
theorem sendVal_nonneg (n : Nat) : 0 ≤ sendVal n ↔ n % 2 ^ 32 < 2 ^ 31 := by
  have hlow : (BitVec.ofNat 32 n).toNat = n % 2 ^ 32 := BitVec.toNat_ofNat n 32
  rw [sendVal, BitVec.toInt_eq_toNat_cond, hlow]
  split <;> omega

theorem length_wire {msg : Message} (h : msg.Wf) : (wire msg).length = msg.length := by
  have hkind : ∀ k, (kindBytes k).length = 2 := by
    intro k
    cases k <;> rfl
  have hbody := Body.length_bytes h.2.valid
  rw [wire, Message.bytes, Message.length, ← hbody]
  simp only [List.length_append, hkind, le_length]
  omega

/-- **What goes out is the kind and the message, whatever the serializer held**, and the
process ends where the message is too long. -/
theorem sendMsg_eq {net : Network} (hs : net.mySer.Sound) {msg : Message} (hm : msg.Wf)
    {info : NodeInfo} (hi : net.dir.getInfo msg.target = some info) :
    ∃ net', net.sendMsg msg =
        (if msg.length % 2 ^ 32 < 2 ^ 31 then some ((info, wire msg), net') else none) ∧
      net'.mySer.Sound ∧ unread net'.mySer = [] ∧ net'.dir = net.dir := by
  obtain ⟨ser, e, hr, hw, -⟩ := ((writes_writeMsgKind msg.kind).bind
    (Message.writes_serialize hm)) net.mySer.clear hs.clear
  have hbuf : ser.buffer = wire msg := hw
  have hlen : ser.numBytesWritten = msg.length :=
    (congrArg List.length hbuf).trans (length_wire hm)
  refine ⟨⟨ser.clear, net.dir⟩, ?_, Sound.clear hr, rfl, rfl⟩
  have hf : frame msg net.mySer = some ((), ser) := e
  rw [sendMsg, hi, hf, ← hbuf]
  simp only [Option.bind_eq_bind, Option.bind_some, hlen, sendVal_nonneg]
  rfl

theorem sendMsg_spec {net : Network} (hs : net.mySer.Sound) {msg : Message} (hm : msg.Wf)
    (hlen : msg.length % 2 ^ 32 < 2 ^ 31) {info : NodeInfo}
    (hi : net.dir.getInfo msg.target = some info) :
    ∃ net', net.sendMsg msg = some ((info, wire msg), net') ∧ net'.mySer.Sound ∧
      unread net'.mySer = [] ∧ net'.dir = net.dir := by
  obtain ⟨net', e, h⟩ := sendMsg_eq hs hm hi
  rw [if_pos hlen] at e
  exact ⟨net', e, h⟩

/-! ### Receiving -/

/-- A node between two messages: nothing is left unread. -/
structure Idle (net : Network) : Prop where
  sound : net.mySer.Sound
  drained : unread net.mySer = []

theorem Idle.read_eq {net : Network} (h : Idle net) :
    net.mySer.numBytesRead = net.mySer.numBytesWritten := by
  have hle := List.drop_eq_nil_iff.mp h.drained
  exact Nat.le_antisymm h.sound.read_le hle

theorem receiveMsg_of_reads {net : Network} (h : Idle net) {msg m : Message}
    (hr : Reads (Message.deserialize msg.kind) msg.bytes m)
    {chunks : List (List UInt8)} (hc : Cuts chunks (wire msg)) (retries : Nat) :
    ∃ net', net.receiveMsg (stream retries chunks) = some (m, net') ∧ Idle net' ∧
      net'.mySer.numBytesWritten = net.mySer.numBytesWritten + (wire msg).length ∧
      net'.dir = net.dir := by
  obtain ⟨ser1, e1, r1, w1, u1⟩ := writes_add_ (wire msg) net.mySer h.sound
  have hu : unread ser1 = wire msg ++ [] := by
    rw [u1, h.drained, List.append_nil, List.nil_append]
  obtain ⟨ser2, e2, r2, w2, u2⟩ := ((reads_readMsgKind msg.kind).bind hr) ser1 [] hu
  refine ⟨⟨ser2, net.dir⟩, ?_, ⟨r2 r1, u2⟩, ?_, rfl⟩
  · have e : (do
        writeBytes (wire msg)
        let type ← readMsgKind
        Message.deserialize type : SerM Message) net.mySer = some (m, ser2) := by
      show (add_ (wire msg) net.mySer).bind
        (fun p => (readMsgKind >>= fun type => Message.deserialize type : SerM Message) p.2) = _
      rw [e1]
      exact e2
    rw [receiveMsg, readStrFromNet_spec hc]
    simp only [Option.bind_eq_bind, Option.bind_some, e]
    rfl
  · have hl : ser2.buffer = net.mySer.buffer ++ wire msg := w2.trans w1
    show ser2.buffer.length = net.mySer.buffer.length + (wire msg).length
    rw [hl, List.length_append]

/-- **Receiving a message consumes its bytes and nothing else.** -/
theorem receiveMsg_spec {net : Network} (h : Idle net) {msg : Message} (hm : msg.Wf)
    {chunks : List (List UInt8)} (hc : Cuts chunks (wire msg)) (retries : Nat) :
    ∃ m net', net.receiveMsg (stream retries chunks) = some (m, net') ∧ m.Same msg ∧ Idle net' ∧
      net'.mySer.numBytesWritten = net.mySer.numBytesWritten + (wire msg).length ∧
      net'.dir = net.dir := by
  obtain ⟨m, hr, hs⟩ := Message.reads_deserialize hm
  obtain ⟨net', e, hidle, hw, hdir⟩ := receiveMsg_of_reads h hr hc retries
  exact ⟨m, net', e, hs, hidle, hw, hdir⟩

/-! ### Runs of a node -/

/-- The states a node's network passes through: it sends, receives what some
node sent, and learns addresses. -/
inductive Reachable : Network → Prop
  | new (dir : Directory) : Reachable (new dir)
  | send {net net' : Network} {msg : Message} {out : NodeInfo × List UInt8} :
      Reachable net → msg.Wf → net.sendMsg msg = some (out, net') → Reachable net'
  | receive {net net' : Network} {msg m : Message} {chunks : List (List UInt8)}
      {retries : Nat} : Reachable net → msg.Wf → Cuts chunks (wire msg) →
      net.receiveMsg (stream retries chunks) = some (m, net') → Reachable net'
  | learn {net : Network} (dir : Directory) : Reachable net → Reachable { net with dir := dir }

/-- **Between two messages nothing is unread, after any run of sends and
receives.** -/
theorem Reachable.idle {net : Network} (h : Reachable net) : Idle net := by
  induction h with
  | new dir => exact ⟨sound_new, rfl⟩
  | @send net net' msg out _ hm e ih =>
    cases hi : net.dir.getInfo msg.target with
    | none => rw [sendMsg, hi] at e; cases e
    | some info =>
      obtain ⟨n, en, hs, hd, -⟩ := sendMsg_eq ih.sound hm hi
      rw [en] at e
      obtain ⟨-, e⟩ := Option.ite_none_right_eq_some.mp e
      cases e
      exact ⟨hs, hd⟩
  | receive _ hm hc e ih =>
    obtain ⟨m', n, en, -, hi, -⟩ := receiveMsg_spec ih hm hc _
    rw [en] at e
    cases e
    exact hi
  | learn dir _ ih => exact ⟨ih.sound, ih.drained⟩

/-- The message that a constructor is given `b` for goes from `sender` to `receiver`: it is
built and sent, and however `read()` cuts the stream, the receiver builds the message that was
asked for and reads exactly the bytes that were written. -/
def RoundTrips (sender receiver : Network) (b : Body) (source target : SizeT) (info : NodeInfo) :
    Prop :=
  ∃ msg sent sender', Message.construct b source target = some msg ∧
    sender.sendMsg msg = some ((info, sent), sender') ∧
    ∀ (chunks : List (List UInt8)) (retries : Nat), Cuts chunks sent →
      ∃ m receiver', receiver.receiveMsg (stream retries chunks) = some (m, receiver') ∧
        m.Same (Message.ofBody b source target) ∧
        receiver'.mySer.numBytesRead = receiver.mySer.numBytesRead + sent.length ∧
        receiver'.mySer.numBytesWritten = receiver.mySer.numBytesWritten + sent.length

/-- An `int` can count the entries of the directory, and holds the number of bytes of the
message without looking negative. -/
def Fits (b : Body) : Prop :=
  (∀ d, b = .dir d → d.size < 2 ^ 31) ∧ (20 + b.length) % 2 ^ 32 < 2 ^ 31

theorem roundTrips_of_fits {sender receiver : Network} (hs : Idle sender) (hr : Idle receiver)
    {b : Body} (hb : b.Valid) (hfits : Fits b) (source : SizeT) {target : SizeT}
    {info : NodeInfo} (hi : sender.dir.getInfo target = some info) :
    RoundTrips sender receiver b source target info := by
  obtain ⟨msg, hmsg, hwf, htarget, hlen, hsame⟩ :=
    Message.construct_spec hb hfits.1 source target
  obtain ⟨sender', e, -, -, -⟩ := sendMsg_spec hs.sound hwf
    (by rw [hlen]; exact hfits.2) (by rwa [htarget])
  refine ⟨msg, wire msg, sender', hmsg, e, fun chunks retries hc => ?_⟩
  obtain ⟨m, receiver', er, hm, hidle, hw, -⟩ := receiveMsg_spec hr hwf hc retries
  refine ⟨m, receiver', er, hm.trans hsame, ?_, hw⟩
  rw [hidle.read_eq, hr.read_eq, hw]

theorem fits_of_roundTrips {sender receiver : Network} (hs : Idle sender) {b : Body}
    (hb : b.Valid) {source target : SizeT} {info : NodeInfo}
    (hi : sender.dir.getInfo target = some info)
    (h : RoundTrips sender receiver b source target info) : Fits b := by
  obtain ⟨msg, sent, sender', hmsg, hsend, -⟩ := h
  have hdir : ∀ d, b = .dir d → d.size < 2 ^ 31 := by
    rintro d rfl
    by_contra hle
    rw [Message.construct_none hb hle] at hmsg
    cases hmsg
  obtain ⟨msg', hmsg', hwf, htarget, hlen, -⟩ := Message.construct_spec hb hdir source target
  obtain rfl : msg' = msg := Option.some.inj (hmsg'.symm.trans hmsg)
  obtain ⟨net', e, -⟩ := sendMsg_eq hs.sound hwf (by rwa [htarget])
  rw [e] at hsend
  have hpos := (Option.ite_none_right_eq_some.mp hsend).1
  exact ⟨hdir, by rwa [hlen] at hpos⟩

/-- **The wire round trip.** Whatever either node sent and received before, a message goes over
the wire exactly as long as an `int` can count what `get_keys` and `send` count in one. -/
theorem receiveMsg_sendMsg {sender receiver : Network} (hs : Reachable sender)
    (hr : Reachable receiver) {b : Body} (hb : b.Valid) (source : SizeT) {target : SizeT}
    {info : NodeInfo} (hi : sender.dir.getInfo target = some info) :
    RoundTrips sender receiver b source target info ↔ Fits b := by
  constructor
  · exact fits_of_roundTrips hs.idle hb hi
  · intro hfits
    exact roundTrips_of_fits hs.idle hr.idle hb hfits source hi

/-- A `PutMsg` for key `"a"` with a NUL in its value, to node 1. -/
theorem receiveMsg_sendMsg_put :
    RoundTrips (new (Directory.new.addInfo 1 ⟨2, 16777343, 36895⟩)) (new Directory.new)
      (.put ⟨⟨[97], CStr.nulFree_a⟩, 1⟩ ⟨[7, 0, 7]⟩) 0 1 ⟨2, 16777343, 36895⟩ :=
  have hb : (Body.put ⟨⟨[97], CStr.nulFree_a⟩, 1⟩ ⟨[7, 0, 7]⟩).Valid :=
    show 3 < 2 ^ 64 by decide
  (receiveMsg_sendMsg (Reachable.new _) (Reachable.new _) hb 0 (by decide)).mpr
    ⟨fun d hd => Body.noConfusion hd, by decide⟩

/-- **A `PutMsg` with a value of `2 ^ 31` bytes is not sent.** -/
theorem not_sent_long : ¬ ∀ (sender receiver : Network), Reachable sender → Reachable receiver →
    ∀ (b : Body), b.Valid → ∀ (source target : SizeT) (info : NodeInfo),
      sender.dir.getInfo target = some info → RoundTrips sender receiver b source target info := by
  intro h
  obtain ⟨v, hlong⟩ : ∃ v : List UInt8, v.length = 2 ^ 31 :=
    ⟨List.replicate (2 ^ 31) 7, List.length_replicate⟩
  have htrip := h (new (Directory.new.addInfo 1 ⟨2, 16777343, 36895⟩)) (new Directory.new)
    (.new _) (.new _) (.put ⟨⟨[97], CStr.nulFree_a⟩, 1⟩ ⟨v⟩)
    (by rw [Body.Valid, Value.getSize, hlong]; omega) 0 1 ⟨2, 16777343, 36895⟩ (by decide)
  have hfits := (fits_of_roundTrips (Reachable.new _).idle
    (by rw [Body.Valid, Value.getSize, hlong]; omega) (by decide) htrip).2
  rw [Body.length, Value.getSize, hlong, List.length_singleton] at hfits
  omega

end Network

end Eau2
