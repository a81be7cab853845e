import Eau2.Network.Pseudo.WriteOnce

/-!
# One store for all nodes

What the key-value store is for: the programs of all nodes work on one store, and each
call is carried out at once (`Central`).  The nodes of a cluster do the same as far as
their programs can tell, when each key is written once: a `put` counts from the moment
it is called, a read at the moment it returns.

* `Sim`: what a cluster and a central store have in common.
* `linearizes`: **every run of the cluster is a run of the central store.**
* `Central.told_run`: what a central store keeps.

Only this direction is stated.  The converse, a schedule of the cluster for each run of
the central store, is not treated.
-/

namespace Eau2

namespace Pseudo

structure Central where
  /-- What the calls of each node so far returned. -/
  results : SizeT → List (Option Value)
  store : Key → Option Value

namespace Central

def init : Central := ⟨fun _ => [], fun _ => none⟩

def finish (c : Central) (i : SizeT) (r : Option Value) : Central :=
  { c with results := Function.update c.results i (c.results i ++ [r]) }

/-- A call of node `i` is carried out; `none` where it has to wait. -/
def call (c : Central) (i : SizeT) : Op → Option Central
  | .put k v => some { c.finish i none with store := Function.update c.store k (some v) }
  | .getValue k shouldBlock =>
    match c.store k with
    | some v => some (c.finish i (some v))
    | none => if shouldBlock then none else some (c.finish i none)

def step (cfg : Config) (c : Central) (i : SizeT) : Option Central :=
  if i < cfg.numNodes then (cfg.program i (c.results i)).bind (c.call i) else none

abbrev run (cfg : Config) (is : List SizeT) : Option Central :=
  Schedule.run (step cfg) init is

/-- What a step of node `i` has done. -/
inductive Step (cfg : Config) (c : Central) (i : SizeT) : Central → Prop
  | put (k : Key) (v : Value) : cfg.program i (c.results i) = some (.put k v) →
      Step cfg c i { c.finish i none with store := Function.update c.store k (some v) }
  | get (k : Key) (b : Bool) (v : Value) : cfg.program i (c.results i) = some (.getValue k b) →
      c.store k = some v → Step cfg c i (c.finish i (some v))
  | miss (k : Key) : cfg.program i (c.results i) = some (.getValue k false) →
      c.store k = none → Step cfg c i (c.finish i none)

theorem step_cases {cfg : Config} {c c' : Central} {i : SizeT} (h : step cfg c i = some c') :
    i < cfg.numNodes ∧ Step cfg c i c' := by
  rw [step] at h
  split at h
  · rename_i hi
    refine ⟨hi, ?_⟩
    obtain ⟨op, hop, h⟩ := Option.bind_eq_some_iff.mp h
    cases op with
    | put k v =>
      cases h
      exact .put k v hop
    | getValue k b =>
      rw [call] at h
      split at h
      · rename_i v hv
        cases h
        exact .get k b v hop hv
      · rename_i hv
        split at h
        · cases h
        · rename_i hb
          cases h
          have hb' : b = false := Bool.not_eq_true _ ▸ hb
          subst hb'
          exact .miss k hop hv
  · cases h

@[simp] theorem finish_store (c : Central) (i : SizeT) (r : Option Value) :
    (c.finish i r).store = c.store := rfl

theorem finish_self (c : Central) (i : SizeT) (r : Option Value) :
    (c.finish i r).results i = c.results i ++ [r] := Function.update_self _ _ _

theorem finish_other (c : Central) {i j : SizeT} (h : j ≠ i) (r : Option Value) :
    (c.finish i r).results j = c.results j := Function.update_of_ne h _ _

end Central

/-! ### The cluster and the central store -/

/-- A put that has begun on a node is done already on the central store. -/
def ahead (nd : Node) : List (Option Value) :=
  match nd.app with
  | .calling (.put _ _) => [none]
  | .draining _ => [none]
  | _ => []

/-- **What they have in common.** -/
structure Sim (st : Cluster) (c : Central) : Prop where
  results : ∀ i, c.results i = (st.nodes i).results ++ ahead (st.nodes i)
  putting : ∀ i k v, (st.nodes i).app = .calling (.put k v) → c.store k = some v
  stored : ∀ i s v, (st.nodes i).kv.kvMap.get s = some v → c.store ⟨s, i⟩ = some v
  mail : ∀ j k m, m ∈ mail (st.nodes j) k → Tells c.store m

section

variable {cfg : Config} {σ : Key → Option Value}

theorem sim_init : Sim Cluster.init Central.init where
  results i := rfl
  putting i k v ha := by cases ha
  stored i s v hv := by simp [Cluster.init, Node.new, KVStore.new] at hv
  mail j k m hm := by
    simp [Cluster.init, Pseudo.mail, Node.new, RcvPc.message, KVStore.cached, KVStore.new] at hm

theorem Tells.mono {f g : Key → Option Value} (h : ∀ k v, f k = some v → g k = some v)
    {m : Message} (hm : Tells f m) : Tells g m := fun k v hb => h k v (hm k v hb)

/-- What is stored and sent after a step agrees with the store that the nodes agreed with
before. -/
theorem Sim.moved {st st' : Cluster} {c : Central} (h : Sim st c) (hi : Inv cfg st) {t : ThreadId}
    {nd : Node} {out : List Message} (hm : Moved cfg st t nd out st') :
    (∀ i s v, (st'.nodes i).kv.kvMap.get s = some v → c.store ⟨s, i⟩ = some v) ∧
      ∀ j k m, m ∈ Pseudo.mail (st'.nodes j) k → Tells c.store m := by
  refine ⟨fun i s v hv => ?_, fun j k m hmem => ?_⟩
  · by_cases hit : i = t.1
    · subst hit
      rw [hm.self, Node.push_kv] at hv
      rcases hm.node.stored_origin (hi.nodes t.1) hv with hv | hst
      · exact h.stored t.1 s v hv
      · cases hr : t.2 with
        | app =>
          rw [hr] at hst
          exact h.putting t.1 _ v hst
        | rcv =>
          rw [hr] at hst
          obtain ⟨m, hrcv, hb⟩ := hst
          refine h.mail t.1 ⟨s, t.1⟩ m (mem_mail.mpr (Or.inl ?_)) _ v (Or.inl hb)
          refine List.mem_append_right _ ?_
          rw [hrcv]
          exact List.mem_singleton.mpr rfl
    · rw [hm.other hit, Node.push_kv] at hv
      exact h.stored i s v hv
  · rcases hm.origin hi hmem with ⟨j', hold⟩ | hf
    · exact h.mail j' k m hold
    · intro k' v hb
      cases hf with
      | put k'' v' ha =>
        rcases hb with hb | hb <;> cases hb
        exact h.putting t.1 k' v ha
      | request k'' b ha ha' => cases b <;> rcases hb with hb | hb <;> cases hb
      | reply k'' q v' hans =>
        rcases hb with hb | hb <;> cases hb
        have hst := h.stored t.1 k'.kStr v hans.stored
        rwa [← hans.home] at hst
      | done ha => rcases hb with hb | hb <;> cases hb
      | teardown n ha => rcases hb with hb | hb <;> cases hb

/-- A step that the programs do not notice leaves the central store as it is. -/
theorem Sim.quiet {st st' : Cluster} {c : Central} (h : Sim st c) (hi : Inv cfg st) {t : ThreadId}
    {nd : Node} {out : List Message} (hm : Moved cfg st t nd out st')
    (hres : nd.results ++ ahead nd = (st.nodes t.1).results ++ ahead (st.nodes t.1))
    (hput : ∀ k v, nd.app = .calling (.put k v) → (st.nodes t.1).app = .calling (.put k v)) :
    Sim st' c := by
  obtain ⟨hstored, hmail⟩ := h.moved hi hm
  refine ⟨fun i => ?_, fun i k v ha => ?_, hstored, hmail⟩
  · by_cases hit : i = t.1
    · subst hit
      rw [hm.self, h.results, ← hres]
      rfl
    · rw [hm.other hit, h.results]
      rfl
  · by_cases hit : i = t.1
    · subst hit
      rw [hm.self, Node.push_app] at ha
      exact h.putting t.1 k v (hput k v ha)
    · rw [hm.other hit, Node.push_app] at ha
      exact h.putting i k v ha

theorem Sim.read {st st' : Cluster} {c : Central} (h : Sim st c) (hi : Inv cfg st) {t : ThreadId}
    {nd : Node} {out : List Message} (hm : Moved cfg st t nd out st') {k : Key} {b : Bool}
    {v : Value} (hop : cfg.program t.1 (st.nodes t.1).results = some (.getValue k b))
    (hbefore : ahead (st.nodes t.1) = []) (hres : nd.results = (st.nodes t.1).results ++ [some v])
    (happ : nd.app = .running) (hv : c.store k = some v) :
    Central.step cfg c t.1 = some (c.finish t.1 (some v)) ∧ Sim st' (c.finish t.1 (some v)) := by
  have hc : c.results t.1 = (st.nodes t.1).results := by
    rw [h.results, hbefore, List.append_nil]
  obtain ⟨hstored, hmail⟩ := h.moved hi hm
  refine ⟨?_, fun i => ?_, fun i k' v' ha => ?_, hstored, hmail⟩
  · rw [Central.step, if_pos hm.lt, hc, hop]
    show c.call t.1 (.getValue k b) = _
    rw [Central.call, hv]
  · by_cases hit : i = t.1
    · subst hit
      rw [Central.finish_self, hc, hm.self, Node.push_results, hres, ahead, Node.push_app, happ,
        List.append_nil]
    · rw [Central.finish_other c hit, hm.other hit, h.results]
      rfl
  · by_cases hit : i = t.1
    · subst hit
      rw [hm.self, Node.push_app, happ] at ha
      cases ha
    · rw [hm.other hit, Node.push_app] at ha
      exact h.putting i k' v' ha

theorem Sim.begin_put {st st' : Cluster} {c : Central} (h : Sim st c) (hi : Inv cfg st)
    (hσ : ∀ k v, c.store k = some v → σ k = some v) {t : ThreadId} {nd : Node}
    {out : List Message} (hm : Moved cfg st t nd out st') {k : Key} {v : Value}
    (hop : cfg.program t.1 (st.nodes t.1).results = some (.put k v))
    (hbefore : (st.nodes t.1).app = .running) (hnd : nd = { st.nodes t.1 with
      app := .calling (.put k v) }) (hv : σ k = some v) :
    Central.step cfg c t.1 = some { c.finish t.1 none with
      store := Function.update c.store k (some v) } ∧
    Sim st' { c.finish t.1 none with store := Function.update c.store k (some v) } := by
  have hc : c.results t.1 = (st.nodes t.1).results := by
    rw [h.results, ahead, hbefore, List.append_nil]
  have hgrow : ∀ k' w, c.store k' = some w →
      Function.update c.store k (some v) k' = some w := by
    intro k' w hw
    rw [Function.update_apply]
    split
    · rename_i hk
      rw [hk] at hw
      rw [← hv, hσ k w hw]
    · exact hw
  obtain ⟨hstored, hmail⟩ := h.moved hi hm
  refine ⟨?_, fun i => ?_, fun i k' v' ha => ?_, fun i s w hw => hgrow _ w (hstored i s w hw),
    fun j k' m hmem => (hmail j k' m hmem).mono hgrow⟩
  · rw [Central.step, if_pos hm.lt, hc, hop]
    rfl
  · by_cases hit : i = t.1
    · subst hit
      show (c.finish t.1 none).results t.1 = _
      rw [Central.finish_self, hc, hm.self, hnd]
      rfl
    · show (c.finish t.1 none).results i = _
      rw [Central.finish_other c hit, hm.other hit, h.results]
      rfl
  · by_cases hit : i = t.1
    · subst hit
      rw [hm.self, Node.push_app, hnd] at ha
      cases ha
      exact Function.update_self _ _ _
    · rw [hm.other hit, Node.push_app] at ha
      exact hgrow k' v' (h.putting i k' v' ha)

theorem Told.read {st st' : Cluster} (h : Told cfg σ st') {t : ThreadId} {nd : Node}
    {out : List Message} (hm : Moved cfg st t nd out st') {k : Key} {b : Bool}
    (hop : cfg.program t.1 (st.nodes t.1).results = some (.getValue k b)) {r : Option Value}
    (hres : nd.results = (st.nodes t.1).results ++ [r]) : ∃ v, r = some v := by
  have hf := (h.nodes t.1).results
  rw [hm.self, Node.push_results, hres] at hf
  obtain ⟨-, op, hop', hr⟩ := hf.of_snoc
  rw [hop] at hop'
  cases hop'
  rw [reply] at hr
  obtain ⟨v, -, hv⟩ := Option.map_eq_some_iff.mp hr
  exact ⟨v, hv.symm⟩

/-- **A step of the cluster is a call of the central store, or none.** -/
theorem Sim.step {st st' : Cluster} {c : Central} (h : Sim st c) (hw : WriteOnce cfg σ)
    (hi : Inv cfg st) (ht : Told cfg σ st) (hσ : ∀ k v, c.store k = some v → σ k = some v)
    {t : ThreadId} (hs : step cfg st t = some st') :
    Sim st' c ∨ ∃ c', Central.step cfg c t.1 = some c' ∧ Sim st' c' := by
  have ht' : Told cfg σ st' := ht.step hw hi hs
  rcases step_cases hs with ⟨nd, out, hm⟩ | ⟨f, -, rfl⟩
  · have hnode := hm.node
    have hsid := (hi.nodes t.1).storeId
    have hpend := (ht.nodes t.1).pending
    cases hr : t.2 with
    | rcv =>
      rw [hr] at hnode
      have happ := RcvStep.app hnode
      refine Or.inl (h.quiet hi hm ?_ fun k v ha => happ ▸ ha)
      rw [RcvStep.results hnode, ahead, happ, ahead]
    | app =>
      rw [hr] at hnode
      replace hnode : AppStep cfg (st.nodes t.1) nd out := hnode
      have hahead : ∀ {pc : AppPc}, (st.nodes t.1).app = pc → ahead (st.nodes t.1) =
          match pc with
          | .calling (.put _ _) => [none]
          | .draining _ => [none]
          | _ => [] := fun ha => by rw [ahead, ha]
      cases hnode with
      | call op ha hp =>
        rw [hsid] at hp
        cases op with
        | put k v =>
          have hv := hw.puts t.1 hm.lt _ k v (ht.nodes t.1).results hp
          obtain ⟨hstep, hsim⟩ := h.begin_put hi hσ hm hp ha rfl hv
          exact Or.inr ⟨_, hstep, hsim⟩
        | getValue k b => exact Or.inl (h.quiet hi hm (by rw [hahead ha]; rfl) (by rintro k v ⟨⟩))
      | ret ha hp => exact Or.inl (h.quiet hi hm (by rw [hahead ha]; rfl) (by rintro k v ⟨⟩))
      | putRemote k data ha hk hlt =>
        refine Or.inl (h.quiet hi hm ?_ (by rintro k v ⟨⟩))
        rw [hahead ha]
        exact List.append_nil _
      | putLocal k data ha hk =>
        exact Or.inl (h.quiet hi hm (by rw [hahead ha]; rfl) (by rintro k v ⟨⟩))
      | drain k kv replies ha hl hd htarget =>
        refine Or.inl (h.quiet hi hm ?_ (by rintro k v ⟨⟩))
        rw [hahead ha]
        exact List.append_nil _
      | getLocal k b r ha hk hv hsome =>
        rw [Pending, ha] at hpend
        obtain ⟨v, rfl⟩ := ht'.read hm hpend rfl
        have hst := h.stored t.1 k.kStr v hv
        rw [← hsid, ← hk] at hst
        obtain ⟨hstep, hsim⟩ := h.read hi hm hpend (hahead ha) rfl rfl hst
        exact Or.inr ⟨_, hstep, hsim⟩
      | ask k b ha hk hlt =>
        exact Or.inl (h.quiet hi hm (by rw [hahead ha]; rfl) (by rintro k v ⟨⟩))
      | take k b val kv ha hl htaken =>
        rw [Pending, ha] at hpend
        obtain ⟨m, k', hc, hb⟩ := htaken.reply
        have hmem : m ∈ (st.nodes t.1).kv.cached k := by
          rw [hc]
          exact List.mem_singleton.mpr rfl
        have happ := (hi.nodes t.1).app
        rw [ha] at happ
        obtain ⟨v', hb'⟩ := (hi.nodes t.1).cached_reply happ.1 hmem
        obtain ⟨rfl, rfl⟩ : k' = k ∧ val = v' := by
          rw [hb] at hb'
          cases hb'
          exact ⟨rfl, rfl⟩
        have hst := h.mail t.1 k' m (mem_mail.mpr (Or.inr hmem)) k' val (Or.inr hb)
        obtain ⟨hstep, hsim⟩ := h.read hi hm hpend (hahead ha) rfl rfl hst
        exact Or.inr ⟨_, hstep, hsim⟩
      | giveUp k ha hl hg =>
        rw [Pending, ha] at hpend
        obtain ⟨v, hv⟩ := ht'.read hm hpend (r := none) rfl
        cases hv
      | done ha hlt => exact Or.inl (h.quiet hi hm (by rw [hahead ha]; rfl) (by rintro k v ⟨⟩))
      | join ha hx => exact Or.inl (h.quiet hi hm (by rw [hahead ha]; rfl) (by rintro k v ⟨⟩))
  · exact Or.inl ⟨h.results, h.putting, h.stored, h.mail⟩

end

/-! ### What a central store keeps -/

namespace Central

variable {cfg : Config} {σ : Key → Option Value}

/-- The keys that were put are those in the store. -/
def Put (cfg : Config) (c : Central) (k : Key) : Prop :=
  ∃ i rs v, rs <+: c.results i ∧ rs ≠ c.results i ∧ cfg.program i rs = some (.put k v)

/-- **What a central store keeps.** -/
structure ToldBy (cfg : Config) (σ : Key → Option Value) (c : Central) : Prop where
  results : ∀ i, Follows (reply σ) (cfg.program i) (c.results i)
  store : ∀ k v, c.store k = some v → σ k = some v
  put : ∀ k, (c.store k).isSome ↔ Put cfg c k

theorem put_finish {c : Central} {i : SizeT} {r : Option Value} {op : Op} {f : Key → Option Value}
    (hop : cfg.program i (c.results i) = some op) (k : Key) :
    Put cfg { c.finish i r with store := f } k ↔ Put cfg c k ∨ ∃ v, op = .put k v := by
  have hself : ({ c.finish i r with store := f } : Central).results i = c.results i ++ [r] :=
    c.finish_self i r
  have hother : ∀ j, j ≠ i →
      ({ c.finish i r with store := f } : Central).results j = c.results j :=
    fun j hj => c.finish_other hj r
  constructor
  · rintro ⟨j, rs, v, hle, hne, hput⟩
    by_cases hj : j = i
    · subst hj
      rw [hself] at hle hne
      have hle := (List.prefix_concat_iff.mp hle).resolve_left hne
      by_cases heq : rs = c.results j
      · rw [heq, hop] at hput
        exact Or.inr ⟨v, Option.some.inj hput⟩
      · exact Or.inl ⟨j, rs, v, hle, heq, hput⟩
    · rw [hother j hj] at hle hne
      exact Or.inl ⟨j, rs, v, hle, hne, hput⟩
  · rintro (⟨j, rs, v, hle, hne, hput⟩ | ⟨v, rfl⟩)
    · by_cases hj : j = i
      · subst hj
        refine ⟨j, rs, v, ?_, ?_, hput⟩
        · rw [hself]
          exact hle.trans (List.prefix_append _ _)
        · rw [hself]
          rintro rfl
          exact absurd hle.length_le (by simp)
      · exact ⟨j, rs, v, by rwa [hother j hj], by rwa [hother j hj], hput⟩
    · refine ⟨i, c.results i, v, ?_, ?_, hop⟩
      · rw [hself]
        exact List.prefix_append _ _
      · rw [hself]
        simp

theorem ToldBy.isSome_of_get {c : Central} (h : ToldBy cfg σ c) (hw : WriteOnce cfg σ) {i : SizeT}
    (hi : i < cfg.numNodes) {k : Key} (hop : cfg.program i (c.results i) = some (.getValue k false)) :
    (c.store k).isSome := by
  obtain ⟨-, rs', v, hle, hput⟩ := hw.gets i hi _ k (h.results i) hop
  refine (h.put k).mpr ⟨i, rs', v, hle, ?_, hput⟩
  intro he
  rw [he, hop] at hput
  cases hput

theorem ToldBy.step {c c' : Central} (h : ToldBy cfg σ c) (hw : WriteOnce cfg σ) {i : SizeT}
    (hi : i < cfg.numNodes) (hs : Step cfg c i c') : ToldBy cfg σ c' := by
  have hresults : ∀ (op : Op) (r : Option Value), cfg.program i (c.results i) = some op →
      reply σ op = some r → ∀ j, Follows (reply σ) (cfg.program j) ((c.finish i r).results j) := by
    intro op r hop hr j
    by_cases hj : j = i
    · subst hj
      rw [finish_self]
      exact (h.results j).snoc hop hr
    · rw [finish_other c hj]
      exact h.results j
  cases hs with
  | put k v hop =>
    have hv := hw.puts i hi _ k v (h.results i) hop
    refine ⟨hresults _ none hop rfl, fun k' v' hk' => ?_, fun k' => ?_⟩
    · replace hk' : Function.update c.store k (some v) k' = some v' := hk'
      rw [Function.update_apply] at hk'
      split at hk'
      · rename_i hk
        rw [hk, hv, hk']
      · exact h.store k' v' hk'
    · rw [put_finish hop, ← h.put]
      show (Function.update c.store k (some v) k').isSome ↔ _
      rw [Function.update_apply]
      split
      · rename_i hk
        exact ⟨fun _ => Or.inr ⟨v, by rw [hk]⟩, fun _ => rfl⟩
      · rename_i hk
        refine ⟨Or.inl, ?_⟩
        rintro (hst | ⟨v', hput⟩)
        · exact hst
        · cases hput
          exact absurd rfl hk
  | get k b v hop hv =>
    refine ⟨hresults _ _ hop ?_, h.store, fun k' => ?_⟩
    · rw [reply, h.store k v hv]
      rfl
    · refine (h.put k').trans ((put_finish (f := c.store) hop k').trans (or_iff_left ?_)).symm
      rintro ⟨v', hput⟩
      cases hput
  | miss k hop hv =>
    have hin := h.isSome_of_get hw hi hop
    rw [hv] at hin
    cases hin

theorem told_run (hw : WriteOnce cfg σ) {is : List SizeT} {c : Central}
    (h : run cfg is = some c) : ToldBy cfg σ c := by
  refine Schedule.run_induction (P := fun _ c => ToldBy cfg σ c) ?_
    (fun _ _ _ _ _ ih hs => ih.step hw (step_cases hs).1 (step_cases hs).2) h
  refine ⟨fun _ => .nil, fun k v hv => (by cases hv), fun k => ⟨fun hs => (by cases hs), ?_⟩⟩
  rintro ⟨i, rs, v, hle, hne, -⟩
  exact absurd (List.prefix_nil.mp hle) hne

end Central

/-! ### Runs -/

/-- **Every run of a cluster is a run of the central store.** -/
theorem linearizes (cfg : Config) (σ : Key → Option Value) (hw : WriteOnce cfg σ)
    (ts : List ThreadId) (st : Cluster) (h : run cfg ts = some st) :
    ∃ is c, Central.run cfg is = some c ∧ Sim st c := by
  refine Schedule.run_induction
    (P := fun _ st => ∃ is c, Central.run cfg is = some c ∧ Sim st c)
    ⟨[], Central.init, rfl, sim_init⟩ ?_ h
  rintro ts st t st' hr ⟨is, c, hrun, hsim⟩ hs
  have hreach : Reachable cfg st := ⟨ts, hr⟩
  rcases hsim.step hw hreach.inv (told_run hw hreach) (Central.told_run hw hrun).store hs with
    hsim | ⟨c', hstep, hsim⟩
  · exact ⟨is, c, hrun, hsim⟩
  · exact ⟨is ++ [t.1], c', Schedule.run_snoc.mpr ⟨c, hrun, hstep⟩, hsim⟩

theorem linearizes_pair : ∃ is c, Central.run pairCfg is = some c ∧
    Sim ((run pairCfg pairSchedule).get rfl) c :=
  linearizes pairCfg pairValue writeOnce_pairCfg pairSchedule
    ((run pairCfg pairSchedule).get rfl) (Option.some_get _).symm

end Pseudo

end Eau2
