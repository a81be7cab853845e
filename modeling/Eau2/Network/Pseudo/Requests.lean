import Eau2.Network.Pseudo.Node

/-!
# Requests for data

What `ReceiverThread::run` does with one message, from the `switch` until it is back in
`receiveMsg` (`Serves`), and when it answers a `GetDataMsg` or a `WaitAndGetMsg`.

* `answered_iff`: **a request is answered exactly when its key is there, or when it may
  wait and be parked**.
-/

namespace Eau2

namespace Pseudo

/-- The receiver thread goes from `nd` to `nd'`, where it is in `receiveMsg` again, and
sends `out`. -/
inductive Serves (cfg : Config) : Node → Node → List Message → Prop
  | back (nd : Node) : nd.rcv = .receiving → Serves cfg nd nd []
  | step (nd nd₁ nd' : Node) (out out' : List Message) : nd.rcv ≠ .receiving →
      rcvStep cfg nd = some (.ok (nd₁, out)) → Serves cfg nd₁ nd' out' →
      Serves cfg nd nd' (out ++ out')

/-- The thread is behind `receiveMsg` with a request for a key that is homed here, from a
node there is. -/
structure Request (cfg : Config) (nd : Node) (m : Message) (k : Key) : Prop where
  rcv : nd.rcv = .handling m
  body : m.body = .getData k ∨ m.body = .waitAndGet k
  kind : m.kind = m.body.kind
  home : k.homeNode = nd.kv.storeId
  sender : m.sender < cfg.numNodes

/-- The request `m` for `k` gets what it asks for: one reply with the value, if there is
one; else one reply to a `GetDataMsg`, and a `WaitAndGetMsg` is parked behind the others
that wait on `k`. -/
def RequestAnswered (cfg : Config) (nd : Node) (m : Message) (k : Key) : Prop :=
  ∃ nd' out, Serves cfg nd nd' out ∧
    match nd.kv.lookup k with
    | some val => out = [Message.replyDataMsg k val nd.kv.storeId m.sender] ∧ nd'.kv = nd.kv
    | none =>
      if m.body = .getData k then
        ∃ reply, out = [reply] ∧ reply.kind = .ReplyData ∧ reply.target = m.sender
      else out = [] ∧ nd'.kv.kvMap = nd.kv.kvMap ∧
        ∀ k', nd'.kv.cached k' = if k = k' then nd.kv.cached k ++ [m] else nd.kv.cached k'

variable {cfg : Config} {nd : Node} {m : Message} {k : Key}

theorem not_serves {nd' : Node} {out : List Message} (hrcv : nd.rcv ≠ .receiving)
    (hstep : ∀ p, rcvStep cfg nd ≠ some (.ok p)) : ¬ Serves cfg nd nd' out := by
  intro h
  cases h with
  | back _ hr => exact hrcv hr
  | step _ nd₁ _ out _ _ hs _ => exact hstep _ hs

theorem Request.ne_receiving (h : Request cfg nd m k) : nd.rcv ≠ .receiving := by
  rw [h.rcv]
  exact fun hc => by cases hc

theorem Request.rcvStep_eq (h : Request cfg nd m k) : rcvStep cfg nd = handle cfg nd m := by
  rw [rcvStep, h.rcv]

theorem Request.lookupHere_eq (h : Request cfg nd m k) :
    lookupHere nd k = .ok (nd.kv.lookup k) := by
  rw [lookupHere, if_pos h.home]

theorem Request.serves_value (h : Request cfg nd m k) {val : Value}
    (hval : nd.kv.lookup k = some val) :
    Serves cfg nd { nd with rcv := .receiving }
      [Message.replyDataMsg k val nd.kv.storeId m.sender] := by
  have hhere : lookupHere nd k = .ok (some val) := by rw [h.lookupHere_eq, hval]
  have hhandle : rcvStep cfg nd = some (.ok
      ({ nd with rcv := .replying (Message.replyDataMsg k val nd.kv.storeId m.sender) }, [])) := by
    rw [h.rcvStep_eq]
    rcases h.body with hb | hb
    · rw [handle, h.kind, hb]
      simp only [Body.kind, hhere]
    · rw [handle, h.kind, hb]
      simp only [Body.kind, hhere]
  have hsend : rcvStep cfg
      { nd with rcv := .replying (Message.replyDataMsg k val nd.kv.storeId m.sender) } =
      some (.ok ({ nd with rcv := .receiving },
        [Message.replyDataMsg k val nd.kv.storeId m.sender])) := by
    show some (send cfg { nd with rcv := .receiving } _) = _
    rw [send]
    exact congrArg some (if_pos h.sender)
  exact .step nd _ _ [] _ h.ne_receiving hhandle
    (.step _ _ _ _ [] (fun hc => by cases hc) hsend (.back _ rfl))

theorem Request.handle_miss (h : Request cfg nd m k) (hbody : m.body = .waitAndGet k)
    (hval : nd.kv.lookup k = none) :
    rcvStep cfg nd = some (.ok ({ nd with rcv := .parking k m }, [])) := by
  have hhere : lookupHere nd k = .ok none := by rw [h.lookupHere_eq, hval]
  rw [h.rcvStep_eq, handle, h.kind, hbody]
  simp only [Body.kind, hhere]

theorem Request.serves_parked (h : Request cfg nd m k) (hbody : m.body = .waitAndGet k)
    (hval : nd.kv.lookup k = none) (hlock : nd.lockHeld = false) :
    Serves cfg nd { nd with kv := nd.kv.addToCache_ k m, rcv := .receiving } [] := by
  have hpark : rcvStep cfg { nd with rcv := .parking k m } =
      some (.ok ({ nd with kv := nd.kv.addToCache_ k m, rcv := .receiving }, [])) := by
    show (if nd.lockHeld then none else _) = _
    rw [hlock]
    rfl
  exact .step nd _ _ [] [] h.ne_receiving (h.handle_miss hbody hval)
    (.step _ _ _ [] [] (fun hc => by cases hc) hpark (.back _ rfl))

theorem Request.getData_fails (h : Request cfg nd m k) (hbody : m.body = .getData k)
    (hval : nd.kv.lookup k = none) : rcvStep cfg nd = some (.error .nullGetData) := by
  have hhere : lookupHere nd k = .ok none := by rw [h.lookupHere_eq, hval]
  rw [h.rcvStep_eq, handle, h.kind, hbody]
  simp only [Body.kind, hhere]

/-- A lock that is never released keeps the thread from parking. -/
theorem Request.parking_waits (h : Request cfg nd m k) (hbody : m.body = .waitAndGet k)
    (hval : nd.kv.lookup k = none) (hlock : nd.lockHeld = true) (nd' : Node) (out : List Message) :
    ¬ Serves cfg nd nd' out := by
  intro hs
  cases hs with
  | back _ hr =>
    rw [h.rcv] at hr
    cases hr
  | step _ nd₁ _ out₁ out₂ _ hstep hrest =>
    rw [h.handle_miss hbody hval] at hstep
    cases hstep
    refine not_serves (fun hc => by cases hc) (fun p => ?_) hrest
    show (if nd.lockHeld then none else _) ≠ _
    rw [hlock]
    exact fun hc => by cases hc

/-- **A request is answered exactly when its key is there, or when it may wait and the
lock of the cache is not kept.** -/
theorem answered_iff (h : Request cfg nd m k) : RequestAnswered cfg nd m k ↔
    (nd.kv.lookup k).isSome ∨ (m.body = .waitAndGet k ∧ nd.lockHeld = false) := by
  cases hval : nd.kv.lookup k with
  | some val =>
    refine iff_of_true ⟨_, _, h.serves_value hval, ?_⟩ (Or.inl rfl)
    rw [hval]
    exact ⟨rfl, rfl⟩
  | none =>
    constructor
    · rintro ⟨nd', out, hs, -⟩
      rcases h.body with hb | hb
      · refine absurd hs (not_serves h.ne_receiving fun p => ?_)
        rw [h.getData_fails hb hval]
        exact fun hc => by cases hc
      · refine Or.inr ⟨hb, ?_⟩
        by_contra hlock
        exact h.parking_waits hb hval (Bool.not_eq_false _ ▸ hlock) nd' out hs
    · rintro (hc | ⟨hb, hlock⟩)
      · cases hc
      · refine ⟨_, _, h.serves_parked hb hval hlock, ?_⟩
        rw [hval]
        have hne : ¬ m.body = .getData k := by
          rw [hb]
          exact fun hc => by cases hc
        show if m.body = .getData k then _ else _
        rw [if_neg hne]
        refine ⟨rfl, ?_, fun k' => KVStore.cached_addToCache nd.kv k k' m⟩
        rw [KVStore.addToCache_]
        split <;> rfl

def idle : Config := ⟨2, 0, fun _ _ => none⟩

/-- Node `0`, with nothing stored, behind the receipt of `m`. -/
def receipt (m : Message) : Node := { Node.new 0 with rcv := .handling m }

theorem request_receipt {m : Message} {k : Key}
    (hbody : m.body = .getData k ∨ m.body = .waitAndGet k) (hkind : m.kind = m.body.kind)
    (hhome : k.homeNode = 0) (hsender : m.sender = 1) :
    Request idle (receipt m) m k :=
  ⟨rfl, hbody, hkind, hhome, by rw [hsender]; decide⟩

/-- A `WaitAndGetMsg` for `a` is parked. -/
theorem answered_iff_wait : RequestAnswered idle
    (receipt (Message.waitAndGetMsg ⟨⟨[97], CStr.nulFree_a⟩, 0⟩ 1 0))
    (Message.waitAndGetMsg ⟨⟨[97], CStr.nulFree_a⟩, 0⟩ 1 0) ⟨⟨[97], CStr.nulFree_a⟩, 0⟩ :=
  (answered_iff (request_receipt (Or.inr rfl) rfl rfl rfl)).mpr (Or.inr ⟨rfl, rfl⟩)

/-- **A `GetDataMsg` for `a` ends the process.** -/
theorem getData_unanswered : ¬ RequestAnswered idle
    (receipt (Message.getDataMsg ⟨⟨[97], CStr.nulFree_a⟩, 0⟩ 1 0))
    (Message.getDataMsg ⟨⟨[97], CStr.nulFree_a⟩, 0⟩ 1 0) ⟨⟨[97], CStr.nulFree_a⟩, 0⟩ := by
  rintro ⟨nd', out, hs, -⟩
  have h : Request idle (receipt (Message.getDataMsg ⟨⟨[97], CStr.nulFree_a⟩, 0⟩ 1 0))
      (Message.getDataMsg ⟨⟨[97], CStr.nulFree_a⟩, 0⟩ 1 0) ⟨⟨[97], CStr.nulFree_a⟩, 0⟩ :=
    request_receipt (Or.inl rfl) rfl rfl rfl
  refine not_serves h.ne_receiving (fun p => ?_) hs
  rw [h.getData_fails rfl (Table.get_new _)]
  exact fun hc => by cases hc

end Pseudo

end Eau2
