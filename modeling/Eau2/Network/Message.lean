import Eau2.Network.Directory
import Eau2.Store.Key

/-!
# Messages

`network/message.h`: eight classes over one header.  `Body` is the class of a
message together with the fields it adds; the header's `kind` is data of its
own, as in the source, and agrees with the class in every message the
constructors build (`Message.Wf`).  The receiver of a message reads the kind,
picks the class by it and lets the class read the rest, header included
(`deserialize`).

`writes_serialize` and `reads_deserialize` are the two halves of the round trip.
-/

namespace Eau2

open Bytes Serializer

/-- The class of a message and its fields. -/
inductive Body
  | getData (key : Key)
  | put (key : Key) (value : Value)
  | replyData (key : Key) (value : Value)
  | waitAndGet (key : Key)
  | register (info : NodeInfo)
  | dir (dir : Directory)
  | done
  | teardown
  deriving DecidableEq, Repr

namespace Body

def kind : Body → MsgKind
  | getData _ => .GetData
  | put _ _ => .Put
  | replyData _ _ => .ReplyData
  | waitAndGet _ => .WaitAndGet
  | register _ => .Register
  | dir _ => .Dir
  | done => .Done
  | teardown => .Teardown

def serialize : Body → SerM Unit
  | getData key => key.serialize
  | put key value => do key.serialize; value.serialize
  | replyData key value => do key.serialize; value.serialize
  | waitAndGet key => key.serialize
  | register info => info.serialize
  | dir d => d.serialize
  | done => pure ()
  | teardown => pure ()

/-- What the class that `receiveMsg` picks for a kind reads behind the header. -/
def deserialize : MsgKind → SerM Body
  | .GetData => getData <$> Key.deserialize
  | .Put => do
    let key ← Key.deserialize
    let value ← Value.deserialize
    pure (put key value)
  | .ReplyData => do
    let key ← Key.deserialize
    let value ← Value.deserialize
    pure (replyData key value)
  | .WaitAndGet => waitAndGet <$> Key.deserialize
  | .Register => register <$> NodeInfo.deserialize
  | .Dir => dir <$> Directory.deserialize
  | .Done => pure done
  | .Teardown => pure teardown

def bytes : Body → List UInt8
  | getData key => key.bytes
  | put key value => key.bytes ++ value.bytes
  | replyData key value => key.bytes ++ value.bytes
  | waitAndGet key => key.bytes
  | register info => info.bytes
  | dir d => d.bytes
  | done => []
  | teardown => []

def length : Body → Nat
  | getData key | waitAndGet key => 17 + key.kStr.val.length
  | put key value | replyData key value => 25 + key.kStr.val.length + value.getSize
  | register _ => 12
  | dir d => 16 + 20 * d.size
  | done | teardown => 0

/-- What a constructor may be given: a value whose length fits a `size_t`, a working
directory. -/
def Valid : Body → Prop
  | put _ value | replyData _ value => value.getSize < 2 ^ 64
  | dir d => d.ips.Valid
  | _ => True

/-- What a constructor builds: the directory is a clone. -/
def Wf : Body → Prop
  | put _ value | replyData _ value => value.getSize < 2 ^ 64
  | dir d => d.Wf
  | _ => True

/-- Equal payloads; directories are equal when they answer alike. -/
def Same : Body → Body → Prop
  | dir d, dir d' => d.Same d'
  | b, b' => b = b'

theorem Same.trans {a b c : Body} (h : a.Same b) (h' : b.Same c) : a.Same c := by
  cases b with
  | dir d =>
    cases a with
    | dir d₁ =>
      cases c with
      | dir d₂ => exact fun node => (h node).trans (h' node)
      | _ => cases h'
    | _ => cases h
  | _ =>
    cases a with
    | dir d₁ => cases h
    | _ =>
      rw [show _ = _ from h]
      exact h'

theorem Wf.valid {b : Body} (h : b.Wf) : b.Valid := by
  cases b with
  | dir d => exact Directory.Wf.valid h
  | _ => exact h

theorem length_bytes {b : Body} (h : b.Valid) : b.bytes.length = b.length := by
  have hkey : ∀ key : Key, key.bytes.length = 17 + key.kStr.val.length := fun key => by
    rw [Key.bytes, Str.bytes, cstr_of_nulFree key.kStr.2]
    simp only [List.length_append, le_length, List.length_singleton]
    omega
  have hvalue : ∀ value : Value, value.bytes.length = 8 + value.getSize := fun value => by
    rw [Value.bytes, List.length_append, le_length, Value.getSize]
  cases b with
  | getData key | waitAndGet key => exact hkey key
  | put key value | replyData key value =>
    show (key.bytes ++ value.bytes).length = 25 + key.kStr.val.length + value.getSize
    rw [List.length_append, hkey, hvalue]
    omega
  | register info =>
    show info.bytes.length = 12
    simp only [NodeInfo.bytes, List.length_append, le_length]
  | dir d => exact Directory.length_bytes h
  | done | teardown => rfl

theorem writes_serialize {b : Body} (h : b.Wf) : Writes b.serialize b.bytes := by
  cases b with
  | getData key => exact key.writes_serialize
  | put key value => exact key.writes_serialize.bind value.writes_serialize
  | replyData key value => exact key.writes_serialize.bind value.writes_serialize
  | waitAndGet key => exact key.writes_serialize
  | register info => exact info.writes_serialize
  | dir d => exact Directory.writes_serialize h
  | done => exact Writes.pure
  | teardown => exact Writes.pure

theorem reads_one {α : Type} {m : SerM α} {bs : List UInt8} {a : α} (h : Reads m bs a)
    (f : α → Body) : Reads (f <$> m) bs (f a) := by
  rw [map_eq_pure_bind]
  exact h.map (Reads.pure (f a))

theorem reads_two {key : Key} {value : Value} (hv : value.getSize < 2 ^ 64)
    (f : Key → Value → Body) :
    Reads (do
      let key ← Key.deserialize
      let value ← Value.deserialize
      pure (f key value) : SerM Body) (key.bytes ++ value.bytes) (f key value) :=
  (Key.reads_deserialize key).bind ((Value.reads_deserialize hv).map (Reads.pure _))

theorem reads_deserialize {b : Body} (h : b.Wf) :
    ∃ b', Reads (deserialize b.kind) b.bytes b' ∧ b'.kind = b.kind ∧ Same b' b := by
  cases b with
  | getData key => exact ⟨_, reads_one (Key.reads_deserialize key) getData, rfl, rfl⟩
  | put key value => exact ⟨_, reads_two h put, rfl, rfl⟩
  | replyData key value => exact ⟨_, reads_two h replyData, rfl, rfl⟩
  | waitAndGet key => exact ⟨_, reads_one (Key.reads_deserialize key) waitAndGet, rfl, rfl⟩
  | register info => exact ⟨_, reads_one (NodeInfo.reads_deserialize info) register, rfl, rfl⟩
  | dir d =>
    obtain ⟨d', hr, hs⟩ := Directory.reads_deserialize (d := d) h
    exact ⟨_, reads_one hr dir, rfl, hs⟩
  | done => exact ⟨_, Reads.pure _, rfl, rfl⟩
  | teardown => exact ⟨_, Reads.pure _, rfl, rfl⟩

end Body

structure Message where
  kind : MsgKind
  sender : SizeT
  target : SizeT
  body : Body
  deriving DecidableEq, Repr

namespace Message

def ofBody (body : Body) (sender target : SizeT) : Message := ⟨body.kind, sender, target, body⟩

def getDataMsg (k : Key) : SizeT → SizeT → Message := ofBody (.getData k)
def putMsg (k : Key) (v : Value) : SizeT → SizeT → Message := ofBody (.put k v)
def replyDataMsg (k : Key) (v : Value) : SizeT → SizeT → Message := ofBody (.replyData k v)
def waitAndGetMsg (k : Key) : SizeT → SizeT → Message := ofBody (.waitAndGet k)
def registerMsg (info : NodeInfo) : SizeT → SizeT → Message := ofBody (.register info)
def doneMsg : SizeT → SizeT → Message := ofBody .done
def teardownMsg : SizeT → SizeT → Message := ofBody .teardown

/-- `DirectoryMsg(dir, sender, target)` keeps a clone of `dir`. -/
def directoryMsg (dir : Directory) (sender target : SizeT) : Option Message := do
  let d ← dir.clone
  pure (ofBody (.dir d) sender target)

/-- What the constructors of the eight classes build. -/
def construct (body : Body) (sender target : SizeT) : Option Message :=
  match body with
  | .dir d => directoryMsg d sender target
  | body => some (ofBody body sender target)

/-- `serialize`: the header of `Message::serialize`, then the class's fields. -/
def serialize (m : Message) : SerM Unit := do
  writeMsgKind m.kind
  writeSizeT m.sender
  writeSizeT m.target
  m.body.serialize

/-- `deserialize` of the class picked for kind `k`. -/
def deserialize (k : MsgKind) : SerM Message := do
  let kind ← readMsgKind
  let sender ← readSizeT
  let target ← readSizeT
  let body ← Body.deserialize k
  pure ⟨kind, sender, target, body⟩

def bytes (m : Message) : List UInt8 :=
  kindBytes m.kind ++ (le 8 m.sender.toNat ++ (le 8 m.target.toNat ++ m.body.bytes))

def length (m : Message) : Nat := 20 + m.body.length

/-- The kind is the class's, and the payload is as the constructors build it. -/
def Wf (m : Message) : Prop := m.kind = m.body.kind ∧ m.body.Wf

/-- Same class, kind, sender and target, and the same payload. -/
structure Same (m m' : Message) : Prop where
  kind : m.kind = m'.kind
  sender : m.sender = m'.sender
  target : m.target = m'.target
  /-- Same class. -/
  cls : m.body.kind = m'.body.kind
  body : m.body.Same m'.body

/-- **What a constructor builds is the message that was asked for**; a directory of more
entries than an `int` counts cannot be cloned. -/
theorem construct_spec {b : Body} (h : b.Valid) (hd : ∀ d, b = .dir d → d.size < 2 ^ 31)
    (sender target : SizeT) : ∃ m, construct b sender target = some m ∧ m.Wf ∧
      m.target = target ∧ m.length = 20 + b.length ∧ m.Same (ofBody b sender target) := by
  cases b with
  | dir d =>
    have hlt := hd d rfl
    obtain ⟨c, hclone, hwf, hsame⟩ := Directory.get_clone (d := d) h hlt
    refine ⟨ofBody (.dir c) sender target, ?_, ⟨rfl, hwf⟩, rfl, ?_, ⟨rfl, rfl, rfl, rfl, hsame⟩⟩
    · show (d.clone).bind _ = _
      rw [hclone]
      rfl
    · show 20 + (16 + 20 * c.size) = 20 + (16 + 20 * d.size)
      rw [hsame.size_eq hwf.valid h]
  | _ => exact ⟨_, rfl, ⟨rfl, h⟩, rfl, rfl, ⟨rfl, rfl, rfl, rfl, rfl⟩⟩

theorem construct_none {d : Directory} (h : d.ips.Valid) (hle : ¬ d.size < 2 ^ 31)
    (sender target : SizeT) : construct (.dir d) sender target = none := by
  show (d.clone).bind _ = _
  rw [Directory.clone_none h hle]
  rfl

theorem Same.trans {m m' m'' : Message} (h : m.Same m') (h' : m'.Same m'') : m.Same m'' where
  kind := h.kind.trans h'.kind
  sender := h.sender.trans h'.sender
  target := h.target.trans h'.target
  cls := h.cls.trans h'.cls
  body := h.body.trans h'.body

theorem wf_ofBody {b : Body} (h : b.Wf) (sender target : SizeT) : Wf (ofBody b sender target) :=
  ⟨rfl, h⟩

theorem writes_serialize {m : Message} (h : m.Wf) : Writes m.serialize m.bytes :=
  (writes_writeMsgKind m.kind).bind ((writes_writeLE 8 _).bind
    ((writes_writeLE 8 _).bind (Body.writes_serialize h.2)))

theorem reads_deserialize {m : Message} (h : m.Wf) :
    ∃ m', Reads (deserialize m.kind) m.bytes m' ∧ m'.Same m := by
  obtain ⟨b, hb, hk, hs⟩ := Body.reads_deserialize h.2
  rw [← h.1] at hb
  refine ⟨⟨m.kind, m.sender, m.target, b⟩, ?_, ⟨rfl, rfl, rfl, hk, hs⟩⟩
  exact (reads_readMsgKind m.kind).bind ((reads_readSizeT m.sender).bind
    ((reads_readSizeT m.target).bind (hb.map (Reads.pure _))))

end Message

end Eau2
