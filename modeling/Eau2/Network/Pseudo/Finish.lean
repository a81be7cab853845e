import Eau2.Network.Pseudo.Central
import Eau2.Network.Pseudo.Shutdown

/-!
# Every fair run finishes

If the programs finish on the central store, in some order of their calls, then they
finish on the cluster, in every fair and orderly run: by induction along the central run
each node comes to see the replies it has seen there, since what a call waits for is put
by a call before it.

* `Sound.grows`: a node whose next call can return gets on.
* `catches_up`: the cluster comes as far as the central store.
* `Sound.ends`: **the cluster ends where the central store ends**, and shuts down.
-/

namespace Eau2

namespace Pseudo

variable {cfg : Config} {σ : Key → Option Value} {ρ : Fair cfg} {i : SizeT}

/-! ### One node gets on -/

theorem NodeStep.results_isPrefix {nd nd' : Node} {r : Role} {out : List Message}
    (hs : NodeStep cfg nd r nd' out) : nd.results <+: nd'.results := by
  cases r with
  | app =>
    replace hs : AppStep cfg nd nd' out := hs
    cases hs <;> first | exact List.prefix_rfl | exact List.prefix_append _ _
  | rcv => rw [RcvStep.results hs]

theorem Sound.results_grow (hc : Sound cfg) {n m : ℕ} (hle : n ≤ m) :
    ((ρ.state n).nodes i).results <+: ((ρ.state m).nodes i).results :=
  hc.stays (P := fun nd => ((ρ.state n).nodes i).results <+: nd.results)
    (fun _ _ _ _ _ hs h => h.trans hs.results_isPrefix) (fun _ _ h => h) hle List.prefix_rfl

theorem ToldNode.pc {nd : Node} (h : ToldNode cfg σ i nd) {op : Op}
    (hop : cfg.program i nd.results = some op) : nd.app = .running ∨ nd.app = .calling op ∨
      (∃ k, nd.app = .draining k) ∨ ∃ k b, nd.app = .awaiting k b ∧ op = .getValue k b := by
  have hp := h.pending
  rw [Pending] at hp
  split at hp
  · rename_i ha
    exact Or.inl ha
  · rename_i op' ha
    rw [hop] at hp
    cases hp
    exact Or.inr (Or.inl ha)
  · rename_i k ha
    exact Or.inr (Or.inr (Or.inl ⟨k, ha⟩))
  · rename_i k b ha
    rw [hop] at hp
    exact Or.inr (Or.inr (Or.inr ⟨k, b, ha, Option.some.inj hp⟩))
  all_goals
    rw [hop] at hp
    cases hp

theorem Returns.length {st st' : Cluster} {k : Key} {b : Bool} {r : Option Value}
    (h : Returns st st' i k b r) : (st.nodes i).results.length < (st'.nodes i).results.length := by
  rw [h.result, List.length_append]
  exact Nat.lt_succ_self _

/-- **A node gets on, if its next call can return.** -/
theorem Sound.grows (hc : Sound cfg) (hw : WriteOnce cfg σ) (ho : OrderlyRun ρ)
    (hi : i < cfg.numNodes) {n : ℕ} {op : Op}
    (hop : cfg.program i ((ρ.state n).nodes i).results = some op)
    (hst : ∀ k b, op = .getValue k b →
      ∃ m, (((ρ.state m).nodes k.homeNode).kv.lookup k).isSome) :
    ∃ m, n ≤ m ∧ ((ρ.state n).nodes i).results.length < ((ρ.state m).nodes i).results.length := by
  by_contra hno
  -- otherwise it stands in this call for ever
  have hres : ∀ m, n ≤ m → ((ρ.state m).nodes i).results = ((ρ.state n).nodes i).results := by
    intro m hm
    have hle := hc.results_grow (ρ := ρ) (i := i) hm
    refine (hle.eq_of_length (Nat.le_antisymm hle.length_le ?_)).symm
    by_contra hlt
    exact hno ⟨m, hm, by omega⟩
  have hpc : ∀ m, n ≤ m → ((ρ.state m).nodes i).app = .running ∨
      ((ρ.state m).nodes i).app = .calling op ∨
      (∃ k, ((ρ.state m).nodes i).app = .draining k) ∨
      ∃ k b, ((ρ.state m).nodes i).app = .awaiting k b ∧ op = .getValue k b := fun m hm =>
    ((told_run hw (reachable ρ m)).nodes i).pc (by rw [hres m hm, hop])
  have hdone : ∀ m r, n ≤ m → ((ρ.state (m + 1)).nodes i).results =
      ((ρ.state m).nodes i).results ++ [r] → False := by
    intro m r hm h
    rw [hres m hm, hres (m + 1) (by omega)] at h
    simpa using congrArg List.length h
  have hdrain : ∀ m k, n ≤ m → ((ρ.state m).nodes i).app ≠ .draining k := by
    intro m k hm ha
    obtain ⟨m', hm', ht, ha⟩ := hc.app_moves hi ha fun nd ha hl => by
      simp only [appStep, ha, hl, Bool.false_eq_true, if_false]
      exact ⟨_, rfl⟩
    obtain ⟨nd, out, hmoved⟩ := hc.moves ht
    have hs : AppStep cfg ((ρ.state m').nodes i) nd out := hmoved.node
    cases hs with
    | drain k' kv replies ha' hl hd htarget =>
      exact hdone m' none (hm.trans hm') (by rw [hmoved.self]; rfl)
    | _ => simp_all
  have hget : ∀ m k b, n ≤ m → op = .getValue k b → ¬ InGet ((ρ.state m).nodes i) k b := by
    intro m k b hm he hin
    have hb : b = true := by
      cases b with
      | true => rfl
      | false => exact absurd ⟨i, _, k, he ▸ hop⟩ hc.blocking
    subst hb
    obtain ⟨m₀, hst⟩ := hst k true he
    obtain ⟨m', hm', r, hret⟩ := read_returns hc ρ ho hin hst
    exact hdone m' r (hm.trans hm') hret.result
  have hcall : ∀ m, n ≤ m → ((ρ.state m).nodes i).app ≠ .calling op := by
    intro m hm ha
    cases hop' : op with
    | getValue k b => exact hget m k b hm hop' (Or.inl (hop' ▸ ha))
    | put k v =>
      rw [hop'] at ha
      obtain ⟨m', hm', ht, ha⟩ := hc.app_moves hi ha fun nd ha _ => by
        rw [appStep, ha]
        show ∃ o, (if k.homeNode ≠ nd.kv.storeId then _ else _) = some o
        split <;> exact ⟨_, rfl⟩
      obtain ⟨nd, out, hmoved⟩ := hc.moves ht
      have hs : AppStep cfg ((ρ.state m').nodes i) nd out := hmoved.node
      cases hs with
      | putRemote k' data ha' hk hlt =>
        exact hdone m' none (hm.trans hm') (by rw [hmoved.self]; rfl)
      | putLocal k' data ha' hk =>
        exact hdrain (m' + 1) k' (by omega) (by rw [hmoved.self]; rfl)
      | _ => simp_all
  rcases hpc n (Nat.le_refl n) with ha | ha | ⟨k, ha⟩ | ⟨k, b, ha, he⟩
  · obtain ⟨m, hm, ht, ha⟩ := hc.app_moves hi ha fun nd ha _ => by
      cases hprog : cfg.program nd.kv.storeId nd.results with
      | none => exact ⟨_, by simp only [appStep, ha, hprog]; rfl⟩
      | some op => exact ⟨_, by simp only [appStep, ha, hprog]; rfl⟩
    obtain ⟨nd, out, hmoved⟩ := hc.moves ht
    have hs : AppStep cfg ((ρ.state m).nodes i) nd out := hmoved.node
    have hpc' := hpc (m + 1) (by omega)
    have hcall' := hcall (m + 1) (by omega)
    rw [hmoved.self, Node.push_app] at hpc' hcall'
    cases hs with
    | call op' ha' hp =>
      rcases hpc' with h | h | ⟨k, h⟩ | ⟨k, b, h, -⟩
      · cases h
      · exact hcall' h
      · cases h
      · cases h
    | ret ha' hp =>
      rcases hpc' with h | h | ⟨k, h⟩ | ⟨k, b, h, -⟩ <;> cases h
    | _ => simp_all
  · exact hcall n (Nat.le_refl n) ha
  · exact hdrain n k (Nat.le_refl n) ha
  · exact hget n k b (Nat.le_refl n) he (Or.inr ha)

theorem NodeStep.results_eq {nd nd' : Node} {r : Role} {out : List Message}
    (hs : NodeStep cfg nd r nd' out) :
    nd'.results = nd.results ∨ nd.app ≠ .running ∧ ∃ x, nd'.results = nd.results ++ [x] := by
  cases r with
  | app =>
    replace hs : AppStep cfg nd nd' out := hs
    cases hs with
    | putRemote k data ha hk ht => exact Or.inr ⟨by simp [ha], _, rfl⟩
    | drain k kv replies ha hl hd ht => exact Or.inr ⟨by simp [ha], _, rfl⟩
    | getLocal k b x ha hk hv hx => exact Or.inr ⟨by simp [ha], _, rfl⟩
    | take k b val kv ha hl ht => exact Or.inr ⟨by simp [ha], _, rfl⟩
    | giveUp k ha hl hg => exact Or.inr ⟨by simp [ha], _, rfl⟩
    | _ => exact Or.inl rfl
  | rcv => exact Or.inl (RcvStep.results hs)

theorem Sound.results_next (hc : Sound cfg) (n : ℕ) :
    ((ρ.state (n + 1)).nodes i).results = ((ρ.state n).nodes i).results ∨
      ((ρ.state n).nodes i).app ≠ .running ∧
        ∃ x, ((ρ.state (n + 1)).nodes i).results = ((ρ.state n).nodes i).results ++ [x] := by
  cases ht : ρ.thread n with
  | none => exact Or.inl (by rw [ρ.waits n ht])
  | some t =>
    obtain ⟨nd, out, hm⟩ := hc.moves ht
    by_cases hit : i = t.1
    · subst hit
      rw [hm.self, Node.push_results]
      exact hm.node.results_eq
    · exact Or.inl (by rw [hm.other hit, Node.push_results])

/-- **What a node has put gets stored.** -/
theorem Sound.put_stored (hc : Sound cfg) (hw : WriteOnce cfg σ) {n : ℕ} {rs : List (Option Value)}
    {k : Key} {v : Value} (hle : rs <+: ((ρ.state n).nodes i).results)
    (hne : rs ≠ ((ρ.state n).nodes i).results) (hop : cfg.program i rs = some (.put k v)) :
    ∃ m, (((ρ.state m).nodes k.homeNode).kv.lookup k).isSome := by
  induction n with
  | zero =>
    rw [ρ.start] at hle hne
    exact absurd (List.prefix_nil.mp hle) hne
  | succ n ih =>
    rcases hc.results_next (ρ := ρ) (i := i) n with he | ⟨hrun, x, he⟩
    · rw [he] at hle hne
      exact ih hle hne
    rw [he] at hle hne
    have hle := (List.prefix_concat_iff.mp hle).resolve_left hne
    by_cases hrs : rs = ((ρ.state n).nodes i).results
    · -- the put returns in this step
      rw [hrs] at hop
      have htold := (told_run hw (reachable ρ n)).nodes i
      rcases htold.pc hop with ha | ha | ⟨k', ha⟩ | ⟨k', b, -, hop'⟩
      · exact absurd ha hrun
      · obtain ⟨m, -, hst⟩ := put_arrives hc ρ ha
        exact ⟨m, hst⟩
      · have hok := ((reachable ρ n).inv.nodes i).app
        have hp := htold.pending
        rw [Pending, ha] at hp
        rw [ha] at hok
        obtain ⟨v', hp⟩ := hp
        rw [hop] at hp
        cases hp
        exact ⟨n, hok.1 ▸ hok.2⟩
      · cases hop'
    · exact ih hle hrs

/-! ### The cluster and the central store -/

/-- **The cluster comes as far as the central store.** -/
theorem catches_up (hc : Sound cfg) (hw : WriteOnce cfg σ) (ho : OrderlyRun ρ)
    {is : List SizeT} {c : Central} (h : Central.run cfg is = some c) :
    ∃ n, (∀ i, c.results i <+: ((ρ.state n).nodes i).results) ∧
      ∀ k, (c.store k).isSome → (((ρ.state n).nodes k.homeNode).kv.lookup k).isSome := by
  refine Schedule.run_induction (P := fun _ c =>
    ∃ n, (∀ i, c.results i <+: ((ρ.state n).nodes i).results) ∧
      ∀ k, (c.store k).isSome → (((ρ.state n).nodes k.homeNode).kv.lookup k).isSome)
    ⟨0, fun _ => List.nil_prefix, fun k hk => by cases hk⟩ ?_ h
  rintro is c i c' hrun ⟨n, hres, hst⟩ hs
  have htold := Central.told_run hw hrun
  have htold' := Central.told_run hw (Schedule.run_snoc.mpr ⟨c, hrun, hs⟩)
  obtain ⟨hi, hstep⟩ := Central.step_cases hs
  -- the reply that node `i` has got on the central store comes on the cluster
  have hreply : ∀ op r, cfg.program i (c.results i) = some op →
      c'.results i = c.results i ++ [r] →
      (∀ k b, op = .getValue k b → (c.store k).isSome) →
      ∃ m, n ≤ m ∧ c'.results i <+: ((ρ.state m).nodes i).results := by
    intro op r hop hr havail
    obtain ⟨m, hm, hne⟩ : ∃ m, n ≤ m ∧ c.results i ≠ ((ρ.state m).nodes i).results := by
      by_cases heq : c.results i = ((ρ.state n).nodes i).results
      · obtain ⟨m, hm, hlt⟩ := hc.grows hw ho hi (heq ▸ hop)
          fun k b he => ⟨n, hst k (havail k b he)⟩
        refine ⟨m, hm, fun he => ?_⟩
        rw [← heq, ← he] at hlt
        exact Nat.lt_irrefl _ hlt
      · exact ⟨n, Nat.le_refl n, heq⟩
    refine ⟨m, hm, ?_⟩
    have hf := ((told_run hw (reachable ρ m)).nodes i).results
    have hf' := htold'.results i
    rw [hr] at hf' ⊢
    rcases hf.comparable hf' with hle | hle
    · have hpre := (hres i).trans (hc.results_grow hm)
      rcases List.prefix_concat_iff.mp hle with he | hle
      · rw [he]
      · exact absurd (hpre.eq_of_length (Nat.le_antisymm hpre.length_le hle.length_le)) hne
    · exact hle
  -- the others, and what is stored, stay
  have hall : ∀ m, n ≤ m → (∀ j, j ≠ i → c'.results j = c.results j) →
      c'.results i <+: ((ρ.state m).nodes i).results →
      ∀ j, c'.results j <+: ((ρ.state m).nodes j).results := by
    intro m hm hother hself j
    by_cases hj : j = i
    · rw [hj]
      exact hself
    · rw [hother j hj]
      exact (hres j).trans (hc.results_grow hm)
  cases hstep with
  | put k v hop =>
    obtain ⟨m, hm, hself⟩ := hreply _ none hop (c.finish_self i none) (by rintro k' b ⟨⟩)
    have hlt : c.results i ≠ ((ρ.state m).nodes i).results := by
      rintro he
      rw [← he] at hself
      have := hself.length_le
      rw [show (_ : Central).results i = _ from c.finish_self i none, List.length_append] at this
      exact absurd this (by simp)
    obtain ⟨m', hput⟩ := hc.put_stored hw
      ((List.prefix_append _ _).trans ((c.finish_self i none).symm ▸ hself)) hlt hop
    refine ⟨max m m', hall _ (by omega) (fun j hj => c.finish_other hj none)
      (hself.trans (hc.results_grow (le_max_left m m'))), fun k' hk' => ?_⟩
    replace hk' : (Function.update c.store k (some v) k').isSome := hk'
    rw [Function.update_apply] at hk'
    split at hk'
    · rename_i hk
      rw [hk]
      exact hc.lookup_stays (le_max_right m m') hput
    · exact hc.lookup_stays (by omega) (hst k' hk')
  | get k b v hop hv =>
    obtain ⟨m, hm, hself⟩ := hreply _ (some v) hop (c.finish_self i _) (by
      rintro k' b' ⟨⟩
      rw [hv]
      rfl)
    exact ⟨m, hall m hm (fun j hj => c.finish_other hj _) hself,
      fun k' hk' => hc.lookup_stays hm (hst k' hk')⟩
  | miss k hop hv => exact absurd ⟨i, _, k, hop⟩ hc.blocking

theorem Sound.run_returns (hc : Sound cfg) (hw : WriteOnce cfg σ) (hi : i < cfg.numNodes) {n : ℕ}
    (hend : cfg.program i ((ρ.state n).nodes i).results = none) :
    ∃ m, HasReturned ((ρ.state m).nodes i) = true := by
  have hp := ((told_run hw (reachable ρ n)).nodes i).pending
  have hsid := ((reachable ρ n).inv.nodes i).storeId
  rw [Pending, hend] at hp
  split at hp
  · rename_i ha
    obtain ⟨m, hm, ht, ha, hres⟩ := ρ.ensures (t := (i, .app))
      (P := fun m => ((ρ.state m).nodes i).app = .running ∧
        ((ρ.state m).nodes i).results = ((ρ.state n).nodes i).results) ⟨ha, rfl⟩
      (fun m _ h => by
        obtain ⟨ha, hres⟩ := h
        have ho : nodeStep cfg ((ρ.state m).nodes i) .app =
            some (.ok ({ (ρ.state m).nodes i with app := .returned }, [])) := by
          show appStep cfg _ = _
          simp only [appStep, ha, ((reachable ρ m).inv.nodes i).storeId, hres, hend]
        exact hc.ready (reachable ρ m) hi ho)
      (fun m _ h ht => by
        obtain ⟨ha, hres⟩ := h
        refine ⟨(hc.app_stays ht).trans ha, ?_⟩
        rcases hc.results_next (ρ := ρ) (i := i) m with he | ⟨hrun, -⟩
        · exact he.trans hres
        · exact absurd ha hrun)
    obtain ⟨nd, out, hmoved⟩ := hc.moves ht
    have hs : AppStep cfg ((ρ.state m).nodes i) nd out := hmoved.node
    refine ⟨m + 1, ?_⟩
    rw [hmoved.self]
    cases hs with
    | ret ha' hp => rfl
    | call op ha' hp =>
      rw [((reachable ρ m).inv.nodes i).storeId, hres, hend] at hp
      cases hp
    | _ => simp_all
  · cases hp
  · obtain ⟨v, hp⟩ := hp
    cases hp
  · cases hp
  all_goals
    rename_i ha
    exact ⟨n, by rw [HasReturned, ha]⟩

theorem Central.results_eq_nil {is : List SizeT} {c : Central} (h : Central.run cfg is = some c)
    (hi : ¬ i < cfg.numNodes) : c.results i = [] := by
  refine Schedule.run_induction (P := fun _ (c : Central) => c.results i = []) rfl ?_ h
  intro is c j c' _ ih hs
  obtain ⟨hj, hstep⟩ := Central.step_cases hs
  have hne : i ≠ j := by
    rintro rfl
    exact hi hj
  cases hstep with
  | put k v hop => exact (c.finish_other hne none).trans ih
  | get k b v hop hv => exact (c.finish_other hne _).trans ih
  | miss k hop hv => exact (c.finish_other hne none).trans ih

/-- What was put can be read off what the calls have returned. -/
theorem Central.store_eq (hw : WriteOnce cfg σ) {is is' : List SizeT} {c c' : Central}
    (h : Central.run cfg is = some c) (h' : Central.run cfg is' = some c')
    (hres : ∀ i, c.results i = c'.results i) : c.store = c'.store := by
  have ht := Central.told_run hw h
  have ht' := Central.told_run hw h'
  have hput : ∀ k, (c.store k).isSome ↔ (c'.store k).isSome := by
    intro k
    rw [ht.put, ht'.put, Central.Put, Central.Put]
    simp only [hres]
  funext k
  cases hk : c.store k with
  | none =>
    have := hput k
    rw [hk] at this
    cases hk' : c'.store k with
    | none => rfl
    | some v =>
      rw [hk'] at this
      cases this.mpr rfl
  | some v =>
    obtain ⟨v', hv'⟩ := Option.isSome_iff_exists.mp ((hput k).mp (by rw [hk]; rfl))
    rw [hv', ← ht.store k v hk, ← ht'.store k v' hv']

/-- **The cluster ends where the central store ends.** In a fair and orderly run of
write-once programs that finish on the central store: from some moment on both threads of
every node have come to their end, every program has seen what it saw on the central
store, and the nodes together store what the central store holds. -/
theorem Sound.ends (hc : Sound cfg) (hw : WriteOnce cfg σ) (ρ : Fair cfg) (ho : OrderlyRun ρ)
    {is : List SizeT} {c : Central} (h : Central.run cfg is = some c)
    (hend : ∀ i, i < cfg.numNodes → cfg.program i (c.results i) = none) :
    ∃ n, ∀ m, n ≤ m →
      (∀ i, i < cfg.numNodes → ((ρ.state m).nodes i).app = .finished ∧
        ((ρ.state m).nodes i).rcv = .exited ∧ ((ρ.state m).nodes i).results = c.results i) ∧
      ∀ k, k.homeNode < cfg.numNodes →
        ((ρ.state m).nodes k.homeNode).kv.lookup k = c.store k := by
  obtain ⟨n₀, hres, hst⟩ := catches_up hc hw ho (ρ := ρ) h
  have hresults : ∀ m, n₀ ≤ m → ∀ i, i < cfg.numNodes →
      ((ρ.state m).nodes i).results = c.results i := by
    intro m hm i hi
    have hle := (hres i).trans (hc.results_grow hm)
    have hge := ((Central.told_run hw h).results i).le_of_ends (hend i hi)
      ((told_run hw (reachable ρ m)).nodes i).results
    exact hge.eq_of_length (Nat.le_antisymm hge.length_le hle.length_le)
  obtain ⟨n₁, hdown⟩ := shuts_down hc ρ fun i hi => hc.run_returns hw hi (n := n₀) (by
    rw [hresults n₀ (Nat.le_refl n₀) i hi]
    exact hend i hi)
  refine ⟨max n₀ n₁, fun m hm => ⟨fun i hi => ?_, fun k hk => ?_⟩⟩
  · obtain ⟨ha, hr⟩ := hdown m (by omega) i hi
    exact ⟨ha, hr, hresults m (by omega) i hi⟩
  · have htold := told_run hw (reachable ρ m)
    obtain ⟨is', c', hrun', hsim⟩ := linearizes cfg σ hw _ _ (ρ.run m)
    have hstore : c'.store = c.store := by
      refine Central.store_eq hw hrun' h fun i => ?_
      by_cases hi : i < cfg.numNodes
      · rw [hsim.results, ahead, (hdown m (by omega) i hi).1, List.append_nil,
          hresults m (by omega) i hi]
      · rw [Central.results_eq_nil hrun' hi, Central.results_eq_nil h hi]
    cases hv : ((ρ.state m).nodes k.homeNode).kv.lookup k with
    | some v => exact ((hsim.stored k.homeNode k.kStr v hv).symm.trans (congrFun hstore k))
    | none =>
      cases hk' : c.store k with
      | none => rfl
      | some v =>
        have := hc.lookup_stays (n := n₀) (m := m) (by omega) (hst k (by rw [hk']; rfl))
        rw [hv] at this
        cases this

end Pseudo

end Eau2
